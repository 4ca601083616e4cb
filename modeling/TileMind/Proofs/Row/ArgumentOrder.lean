import Mathlib
import TileMind.Proofs.Row.CallSlots
import TileMind.Proofs.Row.Given

/-!
# TileMind.Proofs.Row.ArgumentOrder

The order in which a call is given its arguments. Where no slot depends on another one, what is given goes to the
slots that its word announces, or to those of plain values, and leaves all other slots alone. So it only matters what
comes before it of the same sort.

* `Port`: the sorts of slots, and of what is given to a call.
* `give_through`, `through_of_give`: one step, seen through a port of its own sort and through one of another sort.
* `exists_giveAll`: a whole call, from what is given through each port.
* `argument_order`: rows that keep the order of plain values and of the values of each parameter bind the same slots.
-/

namespace TileMind

/-! ## Grammars without conditions -/

/-- No argument depends on another one. -/
def CallSpec.unconditional (spec : CallSpec) : Bool :=
  spec.nodes.all fun x =>
    match x.2 with
    | .choice _ _ | .conditional _ _ _ => false
    | _ => true

/-- The slots of a tile come from a grammar without choices and conditions, if there are any. -/
def Tile.Unconditional (tile : Tile) : Prop :=
  tile.spec.slots = [] ∨ ∃ grammar, tile.LaidOut grammar ∧ grammar.unconditional = true

/-- Slots that depend on nothing but whether they are free. -/
structure FlatSpec.Loose (spec : FlatSpec) : Prop where
  distinct : spec.Distinct
  free : ∀ s ∈ spec.slots, s.group = 0 ∧ s.condition = none

theorem CallSpec.not_mem_of_unconditional {spec node : CallSpec} (h : spec.unconditional = true) {trail : Trail}
    (hnode : (trail, node) ∈ spec.nodes) :
    (∀ i, Turn.option i ∉ trail) ∧ ∀ name absent, Turn.branch name absent ∉ trail := by
  have hpassed {turn : Turn} (hturn : turn ∈ trail) : ∃ passed part, (turn, part) ∈ CallSpec.parts passed ∧
      (∀ name options, passed ≠ .choice name options) ∧
      ∀ name present absent, passed ≠ .conditional name present absent := by
    obtain ⟨before, after, rfl⟩ := List.append_of_mem hturn
    obtain ⟨passed, part, hpassed, hpart⟩ := exists_node_of_append hnode
    have hplain := List.all_eq_true.mp h _ hpassed
    refine ⟨passed, part, hpart, fun name options heq => ?_, fun name present absent heq => ?_⟩
    all_goals
      subst heq
      cases hplain
  constructor
  · intro i hi
    obtain ⟨passed, part, hpart, hchoice, -⟩ := hpassed hi
    cases passed with
    | choice name options => exact hchoice _ _ rfl
    | _ => simp [parts, List.mem_mapIdx] at hpart
  · intro name absent hbranch
    obtain ⟨passed, part, hpart, -, hconditional⟩ := hpassed hbranch
    cases passed with
    | conditional name present absent => exact hconditional _ _ _ rfl
    | _ => simp [parts, List.mem_mapIdx] at hpart

theorem Tile.Unconditional.loose {tile : Tile} (h : tile.Unconditional) : tile.spec.Loose := by
  obtain hnone | ⟨grammar, hspec, hgrammar⟩ := h
  · exact ⟨by simp [FlatSpec.Distinct, hnone], by simp [hnone]⟩
  · obtain ⟨num, hlays⟩ := CallSpec.exists_lays hspec
    refine ⟨hlays.distinct, fun s hs => ?_⟩
    obtain ⟨⟨trail, leaf⟩, hleaf, -⟩ := hlays.mem_slots.mp hs
    obtain ⟨hoption, hbranch⟩ := CallSpec.not_mem_of_unconditional hgrammar
      (CallSpec.mem_leaves.mp (List.mem_of_getElem? hleaf))
    rw [hlays.eq_slot hs hleaf]
    simp [CallSpec.Around.slot, CallSpec.Around.choices_along hoption, CallSpec.Around.condition_along hbranch]

/-! ## Ports -/

/-- The sorts of slots: for the word of a modifier, for the word of a parameter, and for plain values. -/
inductive Port where
  | modifier (tile : String)
  | parameter (tile : String)
  | plain
deriving DecidableEq

/-- A modifier may be given again. -/
def Port.repeats : Port → Bool
  | .modifier _ => true
  | _ => false

def Slot.port (s : Slot) : Port :=
  match s.arg.kind with
  | .modifier => .modifier s.arg.tile
  | .parameter => .parameter s.arg.tile
  | .anonymous => .plain

namespace Row

def Given.port : Given → Port
  | .modifier tile => .modifier tile.id
  | .parameter tile _ => .parameter tile.id
  | .plain _ => .plain

/-- The first slot behind a port that can be bound. -/
def Bound.slot? (b : Bound) (spec : FlatSpec) (p : Port) : Option Nat :=
  (spec.slots.find? fun s => s.port = p && (p.repeats || !b.isFilled s.id)).map Slot.id

def behindPort (spec : FlatSpec) (p : Port) (k : Nat) : Bool := spec.slots.any fun s => s.id = k && s.port = p

def Bound.through (b : Bound) (spec : FlatSpec) (p : Port) : Bound := b.filter fun x => behindPort spec p x.1

section

variable {spec : FlatSpec} (hspec : spec.Loose) {b b' : Bound} {p q : Port} {s : Slot} {k : Nat} {e : Expr}
  {g : Given} {gs : List Given}

theorem Bound.exists_of_slot? (h : b.slot? spec p = some k) :
    ∃ s ∈ spec.slots, s.id = k ∧ s.port = p ∧ (b.isFilled k = true → p.repeats = true) := by
  obtain ⟨s, hs, rfl⟩ := Option.map_eq_some_iff.mp h
  have hfits := List.find?_some hs
  simp only [Bool.and_eq_true, decide_eq_true_eq, Bool.or_eq_true, Bool.not_eq_true'] at hfits
  refine ⟨s, List.mem_of_find?_eq_some hs, rfl, hfits.1, fun hfilled => hfits.2.resolve_right ?_⟩
  simp [hfilled]

theorem isFilled_through : (b.through spec p).isFilled k = (b.isFilled k && behindPort spec p k) := by
  rw [Bool.eq_iff_iff]
  simp only [Bound.isFilled, Bound.through, List.any_filter, List.any_eq_true, Bool.and_eq_true,
    decide_eq_true_eq]
  grind

include hspec

theorem available_of_loose (hs : s ∈ spec.slots) : b.available spec s = !b.isFilled s.id := by
  obtain ⟨hgroup, hcondition⟩ := hspec.free s hs
  simp [Bound.available, hgroup, hcondition]

theorem find?_eq_slot? (tile : String) :
    b.find? spec .modifier tile = b.slot? spec (.modifier tile) ∧
    b.find? spec .parameter tile = b.slot? spec (.parameter tile) ∧
    b.anonymous? spec = b.slot? spec .plain := by
  unfold Bound.find? Bound.anonymous? Bound.slot?
  refine ⟨?_, ?_, ?_⟩ <;> refine congrArg (Option.map Slot.id) (List.find?_congr fun s hs => ?_) <;>
    rw [available_of_loose hspec hs] <;>
    cases hkind : s.arg.kind <;> cases b.isFilled s.id <;> simp [Slot.port, Port.repeats, hkind]

theorem behindPort_iff (hs : s ∈ spec.slots) : behindPort spec p s.id = true ↔ s.port = p := by
  simp only [behindPort, List.any_eq_true, Bool.and_eq_true, decide_eq_true_eq]
  constructor
  · rintro ⟨o, ho, hid, rfl⟩
    rw [hspec.distinct o ho s hs hid]
  · exact fun hport => ⟨s, hs, rfl, hport⟩

theorem slot?_through : (b.through spec p).slot? spec p = b.slot? spec p := by
  unfold Bound.slot?
  refine congrArg (Option.map Slot.id) (List.find?_congr fun s hs => ?_)
  by_cases hport : s.port = p
  · rw [isFilled_through, (behindPort_iff hspec hs).mpr hport, Bool.and_true]
  · simp [hport]

theorem through_bind (hs : s ∈ spec.slots) : (b.bind s.id e).through spec p =
    if s.port = p then (b.through spec p).bind s.id e else b.through spec p := by
  have hbehind := behindPort_iff hspec (p := p) hs
  by_cases hport : s.port = p
  · simp [Bound.through, Bound.bind, hport, hbehind.mpr hport]
  · have hnot : behindPort spec p s.id = false := Bool.eq_false_iff.mpr fun h => hport (hbehind.mp h)
    simp [Bound.through, Bound.bind, hport, hnot]

theorem through_recount (hs : s ∈ spec.slots) : (b.recount s.id).through spec p =
    if s.port = p then (b.through spec p).recount s.id else b.through spec p := by
  have hbehind := behindPort_iff hspec (p := p) hs
  have hfilter : (b.recount s.id).through spec p = (b.through spec p).recount s.id := by
    unfold Bound.through Bound.recount
    rw [List.filter_map]
    refine congrArg (List.map _) (List.filter_congr fun x _ => ?_)
    simp only [Function.comp_apply]
    split
    · rename_i hx
      split
      · rw [hx]
      · rfl
    · rfl
  rw [hfilter]
  split
  · rfl
  · rename_i hport
    unfold Bound.recount
    refine (List.map_congr_left fun x hx => ?_).trans (List.map_id _)
    rw [if_neg, id]
    intro heq
    exact hport (hbehind.mp (heq ▸ (List.mem_filter.mp hx).2))

/-! ## One step -/

omit hspec in
/-- Binds what is given to a slot. -/
def Given.put (b : Bound) (k : Nat) : Given → Option Bound
  | .modifier tile => some (if b.isFilled k then b.recount k else b.bind k (.modifier default tile 1))
  | .parameter tile value => value.plain?.map fun e => b.bind k (.parameter default tile e)
  | .plain value => value.plain?.map fun e => b.bind k e

theorem give_eq_put : give spec b g = (b.slot? spec g.port).bind fun k => g.put b k := by
  obtain hmodifier := fun tile => (find?_eq_slot? hspec (b := b) tile).1
  obtain hparameter := fun tile => (find?_eq_slot? hspec (b := b) tile).2.1
  have hplain := (find?_eq_slot? hspec (b := b) "").2.2
  cases g with
  | modifier tile =>
    rw [give, hmodifier, Given.port]
    cases b.slot? spec (.modifier tile.id) <;> rfl
  | parameter tile value => rw [give, hparameter]; rfl
  | plain value => rw [give, hplain]; rfl

/-- Behind its own port, what is given finds all that matters to it. -/
theorem give_through : give spec (b.through spec g.port) g = (give spec b g).map fun b' => b'.through spec g.port := by
  rw [give_eq_put hspec, give_eq_put hspec, slot?_through hspec]
  cases hslot : b.slot? spec g.port with
  | none => rfl
  | some k =>
    obtain ⟨s, hs, rfl, hport, -⟩ := Bound.exists_of_slot? hslot
    have hbehind : behindPort spec g.port s.id = true := (behindPort_iff hspec hs).mpr hport
    have hbind (e : Expr) : (b.bind s.id e).through spec g.port = (b.through spec g.port).bind s.id e := by
      rw [through_bind hspec hs, if_pos hport]
    rw [Option.bind_some, Option.bind_some]
    cases g with
    | modifier tile =>
      have hrecount : (b.recount s.id).through spec _ = _ := (through_recount hspec hs).trans (if_pos hport)
      simp only [Given.put, isFilled_through, hbehind, Bool.and_true, Option.map_some]
      split
      · rw [hrecount]
      · rw [hbind]
    | parameter tile value =>
      simp only [Given.put, Option.map_map, Function.comp_def, hbind]
    | plain value =>
      simp only [Given.put, Option.map_map, Function.comp_def, hbind]

/-- Behind any other port nothing changes. -/
theorem through_of_give (h : give spec b g = some b') (hport : g.port ≠ p) : b'.through spec p = b.through spec p := by
  rw [give_eq_put hspec] at h
  obtain ⟨k, hslot, hput⟩ := Option.bind_eq_some_iff.mp h
  obtain ⟨s, hs, rfl, hown, -⟩ := Bound.exists_of_slot? hslot
  have hother : s.port ≠ p := hown ▸ hport
  have hbind (e : Expr) : (b.bind s.id e).through spec p = b.through spec p := by
    rw [through_bind hspec hs, if_neg hother]
  cases g with
  | modifier tile =>
    cases hput
    split
    · rw [through_recount hspec hs, if_neg hother]
    · exact hbind _
  | parameter tile value | plain value =>
    obtain ⟨e, -, rfl⟩ := Option.map_eq_some_iff.mp hput
    exact hbind _

/-! ## Whole calls -/

/-- What a call binds behind a port is what it is given through that port. -/
theorem giveAll_through (h : giveAll spec b gs = some b') (p : Port) :
    giveAll spec (b.through spec p) (gs.filter fun g => g.port = p) = some (b'.through spec p) := by
  induction gs generalizing b with
  | nil =>
    cases h
    rfl
  | cons g gs ih =>
    rw [giveAll_cons] at h
    obtain ⟨b₁, hgive, hrest⟩ := Option.bind_eq_some_iff.mp h
    by_cases hport : g.port = p
    · subst hport
      rw [List.filter_cons_of_pos (by simp), giveAll_cons, give_through hspec, hgive]
      exact ih hrest
    · rw [List.filter_cons_of_neg (by simpa using hport), ← through_of_give hspec hgive hport]
      exact ih hrest

/-- There is a slot for everything if there is one for everything that is given through the same port. -/
theorem exists_giveAll (h : ∀ p, ∃ b₁, giveAll spec (b.through spec p) (gs.filter fun g => g.port = p) = some b₁) :
    ∃ b', giveAll spec b gs = some b' := by
  induction gs generalizing b with
  | nil => exact ⟨b, rfl⟩
  | cons g gs ih =>
    obtain ⟨b₁, hown⟩ := h g.port
    rw [List.filter_cons_of_pos (by simp), giveAll_cons, give_through hspec] at hown
    obtain ⟨b₂, hseen, hrest⟩ := Option.bind_eq_some_iff.mp hown
    obtain ⟨b₃, hgive, rfl⟩ := Option.map_eq_some_iff.mp hseen
    rw [giveAll_cons, hgive]
    refine ih fun p => ?_
    by_cases hport : g.port = p
    · exact ⟨b₁, hport ▸ hrest⟩
    · obtain ⟨b₄, hother⟩ := h p
      rw [List.filter_cons_of_neg (by simpa using hport), ← through_of_give hspec hgive hport] at hother
      exact ⟨b₄, hother⟩

/-- Slots of the tile, each bound once. -/
structure Bound.Placed (b : Bound) (spec : FlatSpec) : Prop where
  nodup : (b.map Prod.fst).Nodup
  slot : ∀ x ∈ b, ∃ s ∈ spec.slots, s.id = x.1

omit hspec in
theorem Bound.map_fst_recount (b : Bound) (k : Nat) : (b.recount k).map Prod.fst = b.map Prod.fst := by
  have hplaces := congrArg (List.map Prod.fst) (Bound.places_recount b k)
  simpa [Bound.places, Function.comp_def] using hplaces

omit hspec in
theorem Bound.Placed.congr (h : b.Placed spec) (hkeys : b'.map Prod.fst = b.map Prod.fst) : b'.Placed spec := by
  refine ⟨hkeys ▸ h.nodup, fun x hx => ?_⟩
  have hmem : x.1 ∈ b.map Prod.fst := hkeys ▸ List.mem_map_of_mem hx
  obtain ⟨y, hy, heq⟩ := List.mem_map.mp hmem
  exact heq ▸ h.slot y hy

omit hspec in
theorem Bound.Placed.bind (h : b.Placed spec) (hs : s ∈ spec.slots) (hfree : b.isFilled s.id = false) (e : Expr) :
    (b.bind s.id e).Placed spec := by
  constructor
  · rw [Bound.bind, List.map_append, List.nodup_append]
    refine ⟨h.nodup, List.nodup_singleton _, fun k hk j hj heq => ?_⟩
    obtain rfl : j = s.id := by simpa using hj
    obtain ⟨x, hx, rfl⟩ := List.mem_map.mp hk
    rw [Bound.isFilled, List.any_eq_false] at hfree
    exact hfree x hx (by simpa using heq)
  · intro x hx
    rcases List.mem_append.mp hx with hx | hx
    · exact h.slot x hx
    · exact ⟨s, hs, by rw [List.mem_singleton.mp hx]⟩

theorem placed_give (h : b.Placed spec) (hgive : give spec b g = some b') : b'.Placed spec := by
  rw [give_eq_put hspec] at hgive
  obtain ⟨k, hslot, hput⟩ := Option.bind_eq_some_iff.mp hgive
  obtain ⟨s, hs, rfl, hport, hfilled⟩ := Bound.exists_of_slot? hslot
  cases g with
  | modifier tile =>
    cases hput
    split
    · exact h.congr (Bound.map_fst_recount b s.id)
    · rename_i hfree
      exact h.bind hs (by simpa using hfree) _
  | parameter tile value | plain value =>
    obtain ⟨e, -, rfl⟩ := Option.map_eq_some_iff.mp hput
    exact h.bind hs (Bool.eq_false_iff.mpr fun h => absurd (hfilled h) (by simp [Given.port, Port.repeats])) _

theorem placed_giveAll (h : b.Placed spec) (hgive : giveAll spec b gs = some b') : b'.Placed spec := by
  induction gs generalizing b with
  | nil =>
    cases hgive
    exact h
  | cons g gs ih =>
    rw [giveAll_cons] at hgive
    obtain ⟨b₁, hfirst, hrest⟩ := Option.bind_eq_some_iff.mp hgive
    exact ih (placed_give hspec h hfirst) hrest

omit hspec in
/-- Slots that look the same through every port are the same slots. -/
theorem perm_of_through (h : b.Placed spec) (h' : b'.Placed spec)
    (hsame : ∀ p, b.through spec p = b'.through spec p) : b.Perm b' := by
  have hmem {c c' : Bound} (hc : c.Placed spec) (hsame : ∀ p, c.through spec p = c'.through spec p) {x : Nat × Expr}
      (hx : x ∈ c) : x ∈ c' := by
    obtain ⟨s, hs, hid⟩ := hc.slot x hx
    have hbehind : behindPort spec s.port x.1 = true := List.any_eq_true.mpr ⟨s, hs, by simp [hid]⟩
    have hthrough : x ∈ c.through spec s.port := List.mem_filter.mpr ⟨hx, hbehind⟩
    rw [hsame] at hthrough
    exact (List.mem_filter.mp hthrough).1
  refine (List.perm_ext_iff_of_nodup (.of_map _ h.nodup) (.of_map _ h'.nodup)).mpr fun x => ?_
  exact ⟨hmem h hsame, hmem h' fun p => (hsame p).symm⟩

omit hspec in
theorem args_eq_of_perm (h : (b.map Prod.fst).Nodup) (hperm : b.Perm b') : b.args = b'.args := by
  have hsorted (b : Bound) : (b.mergeSort fun x y => decide (x.1 ≤ y.1)).Pairwise
      fun x y => decide (x.1 ≤ y.1) = true := List.pairwise_mergeSort
    (fun x y z hxy hyz => by simp only [decide_eq_true_eq] at *; omega)
    (fun x y => by simp only [Bool.or_eq_true, decide_eq_true_eq]; omega) b
  have hinj := List.inj_on_of_nodup_map h
  refine congrArg Args.ofList (List.Perm.eq_of_pairwise (fun x y hx hy hxy hyx => ?_) (hsorted b) (hsorted b')
    (((List.mergeSort_perm b _).trans hperm).trans (List.mergeSort_perm b' _).symm))
  rw [List.mem_mergeSort] at hx hy
  simp only [decide_eq_true_eq] at hxy hyx
  exact hinj hx (hperm.mem_iff.mpr hy) (by omega)

end

/-! ## Orders -/

/-- The same is given in another order, which keeps that of the plain values and that of the values of each
parameter. -/
structure Reordered (gs gs' : List Given) : Prop where
  perm : gs.Perm gs'
  plain : (gs.filter fun g => g.port = .plain) = gs'.filter fun g => g.port = .plain
  parameter : ∀ tile, (gs.filter fun g => g.port = .parameter tile) = gs'.filter fun g => g.port = .parameter tile

section

variable {c : Catalog} {gs gs' : List Given}

/-- Words of the same modifier cannot be told apart. -/
theorem Given.eq_modifier {g : Given} {tile : Tile} (h : g.Valid c) (hport : g.port = .modifier tile.id)
    (htile : c.get? tile.id = some tile) : g = .modifier tile := by
  cases g with
  | modifier arg =>
    obtain hid : arg.id = tile.id := Port.modifier.inj hport
    have harg := h.1
    rw [hid, htile] at harg
    rw [Option.some.inj harg]
  | _ => cases hport

theorem Reordered.port (h : Reordered gs gs') (hvalid : ∀ g ∈ gs, g.Valid c) (p : Port) :
    (gs.filter fun g => g.port = p) = gs'.filter fun g => g.port = p := by
  cases p with
  | plain => exact h.plain
  | parameter tile => exact h.parameter tile
  | modifier id =>
    have hperm := h.perm.filter fun g => g.port = .modifier id
    cases hfirst : gs.filter fun g => g.port = .modifier id with
    | nil =>
      rw [hfirst] at hperm
      exact (List.nil_perm.mp hperm).symm
    | cons g more =>
      obtain ⟨hg, hown⟩ := List.mem_filter.mp (hfirst ▸ List.mem_cons_self : g ∈ gs.filter _)
      cases g with
      | modifier tile =>
        obtain rfl : tile.id = id := by simpa [Given.port] using hown
        have hall : ∀ x ∈ gs.filter fun g => g.port = .modifier tile.id, x = .modifier tile := fun x hx =>
          Given.eq_modifier (hvalid x (List.mem_filter.mp hx).1) (by simpa using (List.mem_filter.mp hx).2)
            (hvalid _ hg).1
        rw [← hfirst, List.eq_replicate_of_mem hall]
        rw [List.eq_replicate_of_mem hall] at hperm
        exact (List.perm_replicate.mp hperm.symm).symm
      | _ => simp [Given.port] at hown

/-- What is given in another order is bound to the same slots. -/
theorem Reordered.giveAll {spec : FlatSpec} (hspec : spec.Loose) (h : Reordered gs gs')
    (hvalid : ∀ g ∈ gs, g.Valid c) {b : Bound} (hgive : giveAll spec [] gs = some b) :
    ∃ b', Row.giveAll spec [] gs' = some b' ∧ b'.args = b.args := by
  have hport := h.port hvalid
  obtain ⟨b', hgive'⟩ : ∃ b', Row.giveAll spec [] gs' = some b' := exists_giveAll hspec fun p =>
    ⟨_, hport p ▸ giveAll_through hspec hgive p⟩
  have hempty : Bound.Placed [] spec := ⟨List.nodup_nil, by simp⟩
  have hplaced := placed_giveAll hspec hempty hgive
  have hplaced' := placed_giveAll hspec hempty hgive'
  refine ⟨b', hgive', args_eq_of_perm hplaced'.nodup (perm_of_through hplaced' hplaced fun p => ?_)⟩
  have hseen := giveAll_through hspec hgive p
  have hseen' := giveAll_through hspec hgive' p
  rw [hport p] at hseen
  exact Option.some.inj (hseen'.symm.trans hseen)

/-- A tile without choices and conditions that is called without a problem can be called with what it is given in any
other order, as long as that of the plain values stays the same and that of the values of each parameter. Again there
is no problem, and the same values and counts of modifiers are bound to the same slots. -/
theorem argument_order {tile : Tile} (htile : c.get? tile.id = some tile)
    (hcall : tile.kind = .sensor ∨ tile.kind = .actuator) (hspec : tile.Unconditional)
    (hvalid : ∀ g ∈ gs, g.Valid c) (horder : Reordered gs gs') {rule rule' : String} {row row' : Text.Source}
    (hrow : Spells row tile gs) (hrow' : Spells row' tile gs') {lastId lastId' : Nat} {diags diags' : Diagnostics}
    (hclean : (readRow c rule row lastId diags).2.diags = diags) :
    (readRow c rule' row' lastId' diags').2.diags = diags' ∧ ∃ m m' args args',
      (readRow c rule row lastId diags).1 = .call m tile args ∧
      (readRow c rule' row' lastId' diags').1 = .call m' tile args' ∧ args'.unmarked = args.unmarked := by
  have hread := readRow_given htile hcall hvalid hrow rule lastId diags
  cases hgive : Row.giveAll tile.spec [] gs with
  | none =>
    rw [hgive, hclean] at hread
    exact absurd hread (Nat.lt_irrefl _)
  | some b =>
    rw [hgive] at hread
    obtain ⟨-, m, args, htree, hargs⟩ := hread
    obtain ⟨b', hgive', hsame⟩ := horder.giveAll hspec.loose hvalid hgive
    have hvalid' : ∀ g ∈ gs', g.Valid c := fun g hg => hvalid g (horder.perm.mem_iff.mpr hg)
    have hread' := readRow_given htile hcall hvalid' hrow' rule' lastId' diags'
    rw [hgive'] at hread'
    obtain ⟨hdiags', m', args', htree', hargs'⟩ := hread'
    exact ⟨hdiags', m, m', args, args', htree, htree', by rw [hargs, hargs', hsame]⟩

/-- Steps, a name for the walk, and speeds at both of its ends. -/
def walkGrammar : CallSpec :=
  .bag [.anon .number, .param "speed", .optional (.mod "fast"), .param "speed", .anon .string]

def speedTile : Tile := { id := "speed", kind := .parameter, value := .number }

def fastTile : Tile := { id := "fast", kind := .modifier, value := .number }

def walkingCatalog : Catalog := { tiles := [laidOut "walk" walkGrammar, speedTile, fastTile] }

def numberToken (digits : String) : Token := { kind := .number, literal := digits }

def walkGiven : List Given :=
  [.plain (numberToken "7"), .modifier fastTile, .parameter speedTile (numberToken "1"),
    .parameter speedTile { kind := .variable, literal := "v" }, .plain { kind := .string, literal := "home" },
    .modifier fastTile]

def walkReordered : List Given :=
  [.parameter speedTile (numberToken "1"), .modifier fastTile, .modifier fastTile, .plain (numberToken "7"),
    .plain { kind := .string, literal := "home" }, .parameter speedTile { kind := .variable, literal := "v" }]

theorem reordered_walk : Reordered walkGiven walkReordered := by
  refine ⟨by decide +kernel, by decide +kernel, fun tile => ?_⟩
  by_cases h : tile = "speed"
  · subst h
    decide +kernel
  · have hne : ¬"speed" = tile := fun heq => h heq.symm
    simp [walkGiven, walkReordered, Given.port, speedTile, hne]

theorem valid_walkGiven : ∀ g ∈ walkGiven, g.Valid walkingCatalog := by
  have hspeed : walkingCatalog.get? speedTile.id = some speedTile := by decide +kernel
  have hfast : walkingCatalog.get? fastTile.id = some fastTile := by decide +kernel
  simp only [walkGiven, List.forall_mem_cons, List.not_mem_nil, false_implies, implies_true, and_true]
  have hplain : ∀ t : Token, t.kind ∈ [TokenKind.number, .string, .truth, .falsity, .nil, .variable] → t.IsPlain :=
    fun _ => id
  exact ⟨hplain _ (by decide), ⟨hfast, rfl⟩, ⟨⟨hspeed, rfl⟩, by decide⟩, ⟨⟨hspeed, rfl⟩, by decide⟩,
    hplain _ (by decide), ⟨hfast, rfl⟩⟩

def walkRow (row : String) : Expr × Reader := readRow walkingCatalog "" row 0 []

theorem spells_walk : Spells "walk 7 fast speed 1 speed $v \"home\" fast" (laidOut "walk" walkGrammar) walkGiven := by
  unfold Spells
  decide +kernel

theorem spells_walkReordered :
    Spells "walk speed 1 fast fast 7 \"home\" speed $v" (laidOut "walk" walkGrammar) walkReordered := by
  unfold Spells
  decide +kernel

/-- The same walk, said in another order. -/
theorem argument_order_walk :
    (walkRow "walk 7 fast speed 1 speed $v \"home\" fast").2.diags = [] ∧
    (walkRow "walk speed 1 fast fast 7 \"home\" speed $v").2.diags = [] ∧ ∃ m m' args args',
      (walkRow "walk 7 fast speed 1 speed $v \"home\" fast").1 = .call m (laidOut "walk" walkGrammar) args ∧
      (walkRow "walk speed 1 fast fast 7 \"home\" speed $v").1 = .call m' (laidOut "walk" walkGrammar) args' ∧
      args'.unmarked = args.unmarked := by
  unfold walkRow
  have hclean : (readRow walkingCatalog "" "walk 7 fast speed 1 speed $v \"home\" fast" 0 []).2.diags = [] := by
    decide +kernel
  have htile : walkingCatalog.get? (laidOut "walk" walkGrammar).id = some (laidOut "walk" walkGrammar) := by
    decide +kernel
  have hspec : (laidOut "walk" walkGrammar).Unconditional := .inr ⟨walkGrammar, laidOut_spec _ _, rfl⟩
  exact ⟨hclean, argument_order htile (.inr rfl) hspec valid_walkGiven reordered_walk spells_walk
    spells_walkReordered hclean⟩

end

end Row
end TileMind
