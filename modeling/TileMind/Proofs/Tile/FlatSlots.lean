import Mathlib
import TileMind.Proofs.Tile.Flattening

/-!
# TileMind.Proofs.Tile.FlatSlots

What a slot of a flat form says about its argument, read off the trail of that argument, and choices of
several grammars that are flattened one after the other.

* `CallSpec.taken`, `CallSpec.condition?`: the choices and the innermost condition on a trail.
* `Slot.Tells`: a slot tells what is on the trail of its argument.
* `CallSpec.flattenEach`: flattenings in turn, with one counter.
* `flattenEach_tells`: the slots of all of them, and which slots share a choice.
-/

namespace TileMind
namespace CallSpec

/-! ## Trails -/

/-- The choices that a trail takes an option of, outermost first, with these options. -/
def taken : Trail → List (Trail × Nat)
  | [] => []
  | .option i :: trail => ([], i) :: (taken trail).map fun x => (.option i :: x.1, x.2)
  | turn :: trail => (taken trail).map fun x => (turn :: x.1, x.2)

def branch? : Turn → Option SlotCondition
  | .branch name absent => some ⟨name, absent⟩
  | _ => none

/-- The innermost condition on a trail, with the branch that is taken. -/
def condition? (trail : Trail) : Option SlotCondition := trail.reverse.findSome? branch?

section

variable {num : Trail → Nat} {around : Around} {trail before : Trail} {i : Nat}

theorem mem_taken : (before, i) ∈ taken trail ↔ ∃ after, trail = before ++ Turn.option i :: after := by
  induction trail generalizing before with
  | nil => simp [taken]
  | cons turn trail ih =>
    cases turn <;> cases before <;> simp [taken, ih] <;> grind

theorem choices_along_eq : (around.along num trail).choices =
    ((taken trail).map fun x => (num x.1, x.2)).reverse ++ around.choices := by
  induction trail generalizing num around with
  | nil => rfl
  | cons turn trail ih =>
    rw [Around.along, ih]
    cases turn <;> simp [taken, Around.enter, Function.comp_def]

theorem condition_along_eq :
    (around.along num trail).condition = (condition? trail).or around.condition := by
  induction trail generalizing num around with
  | nil => rfl
  | cons turn trail ih =>
    rw [Around.along, ih, condition?, condition?, List.reverse_cons, List.findSome?_append]
    cases turn <;> cases trail.reverse.findSome? branch? <;> rfl

theorem optional_along_eq :
    (around.along num trail).optional = (around.optional || decide (Turn.optional ∈ trail)) := by
  induction trail generalizing num around with
  | nil => simp [Around.along]
  | cons turn trail ih =>
    rw [Around.along, ih]
    cases turn <;> simp [Around.enter]

theorem repeats_along_eq :
    (around.along num trail).repeats = (around.repeats || decide (Turn.repeated ∈ trail)) := by
  induction trail generalizing num around with
  | nil => simp [Around.along]
  | cons turn trail ih =>
    rw [Around.along, ih]
    cases turn <;> simp [Around.enter]

end

end CallSpec

open CallSpec (Trail taken condition? Around)

/-- A slot tells what is on the trail of its argument: the choices with their numbers, outermost first, the
innermost one with the option that is taken in it, the innermost condition, and whether anything on the way is
optional or repeated. -/
structure Slot.Tells (num : Trail → Nat) (k : Nat) (trail : Trail) (leaf : ArgSpec) (s : Slot) : Prop where
  id : s.id = k
  arg : s.arg = leaf
  groups : s.groups = (taken trail).map fun x => num x.1
  innermost : (s.group, s.option) =
    match (taken trail).getLast? with
    | some (choice, i) => (num choice, i)
    | none => (0, 0)
  condition : s.condition = condition? trail
  optional : s.optional = true ↔ .optional ∈ trail
  repeats : s.repeats = true ↔ .repeated ∈ trail

namespace CallSpec

theorem tells_slot (num : Trail → Nat) (k : Nat) (trail : Trail) (leaf : ArgSpec) :
    ((Around.along num {} trail).slot k leaf).Tells num k trail leaf where
  id := rfl
  arg := rfl
  groups := by simp [Around.slot, choices_along_eq, Function.comp_def]
  innermost := by
    simp only [Around.slot, choices_along_eq, List.append_nil, List.head?_reverse, List.getLast?_map]
    cases (taken trail).getLast? <;> rfl
  condition := by simp [Around.slot, condition_along_eq]
  optional := by simp [Around.slot, optional_along_eq]
  repeats := by simp [Around.slot, repeats_along_eq]

/-! ## Grammars that may be missing -/

/-- The arguments of a grammar from left to right, with their trails. -/
def leavesOf (spec : Option CallSpec) : List (Trail × ArgSpec) := spec.elim [] leaves

/-- The choices of a grammar, a choice before those in it, with their trails and names. -/
def choicesOf (spec : Option CallSpec) : List (Trail × String) := spec.elim [] choices

def numberOf (spec : Option CallSpec) (last : Nat) (c : Trail) : Nat :=
  last + 1 + ((choicesOf spec).map Prod.fst).idxOf c

/-- The trail of the last choice of a name; the empty name is none. -/
def lastNamed? (spec : Option CallSpec) (name : String) : Option Trail :=
  if name = "" then none else ((choicesOf spec).reverse.find? fun x => x.2 = name).map Prod.fst

section

variable {spec : Option CallSpec} {last : Nat} {c d : Trail}

theorem slots_flatten (spec : Option CallSpec) (last : Nat) : (flatten spec last).1.slots =
    (leavesOf spec).mapIdx fun k x => (Around.along (numberOf spec last) {} x.1).slot k x.2 := by
  cases spec with
  | none => rfl
  | some spec =>
    rw [flatten, flattenInto_eq_foldl (spec.numbers_number last), slots_foldl_visit]
    simp only [List.length_nil, Nat.zero_add, List.nil_append]
    rfl

theorem choices_flatten (spec : Option CallSpec) (last : Nat) (name : String) :
    (flatten spec last).1.choices.get? name = (lastNamed? spec name).map (numberOf spec last) := by
  cases spec with
  | none =>
    rw [lastNamed?]
    split <;> rfl
  | some spec =>
    rw [flatten, flattenInto_eq_foldl (spec.numbers_number last),
      choices_foldl_visit (spec.numbers_number last), get?_foldl_named, lastNamed?]
    by_cases hnone : name = ""
    · rw [if_pos hnone, List.find?_eq_none.mpr (by grind)]
      rfl
    · have hsame : (fun x : Trail × String => decide (x.2 = name) && decide (x.2 ≠ "")) =
          fun x => decide (x.2 = name) := by
        funext x
        grind
      rw [if_neg hnone, hsame]
      rfl

theorem last_flatten (spec : Option CallSpec) (last : Nat) :
    (flatten spec last).2 = last + (choicesOf spec).length := by
  cases spec with
  | none => rfl
  | some spec =>
    rw [flatten, flattenInto_eq_foldl (spec.numbers_number last), snd_foldl_visit]
    rfl

theorem numberOf_le (h : c ∈ (choicesOf spec).map Prod.fst) :
    numberOf spec last c ≤ last + (choicesOf spec).length := by
  have hlt := List.idxOf_lt_length_of_mem h
  rw [List.length_map] at hlt
  rw [numberOf]
  omega

theorem numberOf_inj (hc : c ∈ (choicesOf spec).map Prod.fst)
    (h : numberOf spec last c = numberOf spec last d) : c = d := by
  refine (List.idxOf_inj hc).mp ?_
  unfold numberOf at h
  omega

/-- What a trail has taken is a choice of the grammar. -/
theorem mem_choicesOf {trail : Trail} {leaf : ArgSpec} {i : Nat} (hleaf : (trail, leaf) ∈ leavesOf spec)
    (hc : (c, i) ∈ taken trail) : c ∈ (choicesOf spec).map Prod.fst := by
  cases spec with
  | none => cases hleaf
  | some spec =>
    obtain ⟨after, rfl⟩ := mem_taken.mp hc
    exact exists_choice_of_option (mem_leaves.mp hleaf)

end

/-! ## Several grammars -/

def flattenEach : List (Option CallSpec) → Nat → List FlatSpec × Nat
  | [], last => ([], last)
  | spec :: rest, last =>
    let (flat, last) := flatten spec last
    let (flats, last) := flattenEach rest last
    (flat :: flats, last)

/-- The last number given out before the grammar at a place. -/
def lastBefore (specs : List (Option CallSpec)) (last i : Nat) : Nat :=
  last + ((specs.take i).map fun spec => (choicesOf spec).length).sum

/-- The number of a choice of the grammar at a place. -/
def numberAt (specs : List (Option CallSpec)) (last i : Nat) (c : Trail) : Nat :=
  numberOf (specs.getD i none) (lastBefore specs last i) c

section

variable {specs : List (Option CallSpec)} {last i j : Nat} {c d : Trail}

theorem flattenEach_getElem? (specs : List (Option CallSpec)) (last i : Nat) :
    (flattenEach specs last).1[i]? =
      specs[i]?.map fun spec => (flatten spec (lastBefore specs last i)).1 := by
  induction specs generalizing last i with
  | nil => rfl
  | cons spec specs ih =>
    cases i with
    | zero => rfl
    | succ i =>
      have hlast : lastBefore specs (flatten spec last).2 i = lastBefore (spec :: specs) last (i + 1) := by
        simp [lastBefore, last_flatten, Nat.add_assoc]
      rw [← hlast]
      exact ih _ i

theorem length_flattenEach (specs : List (Option CallSpec)) (last : Nat) :
    (flattenEach specs last).1.length = specs.length := by
  induction specs generalizing last with
  | nil => rfl
  | cons spec specs ih => rw [flattenEach, List.length_cons, List.length_cons, ih]

theorem lastBefore_succ (specs : List (Option CallSpec)) (last i : Nat) :
    lastBefore specs last (i + 1) = lastBefore specs last i + (choicesOf (specs.getD i none)).length := by
  rw [lastBefore, List.take_add_one, List.map_append, List.sum_append, ← Nat.add_assoc]
  cases hi : specs[i]? <;> simp [lastBefore, List.getD, hi, choicesOf]

theorem lastBefore_le (h : i ≤ j) : lastBefore specs last i ≤ lastBefore specs last j :=
  monotone_nat_of_le_succ (fun i => lastBefore_succ specs last i ▸ Nat.le_add_right _ _) h

/-- Numbers tell the choices of all grammars apart. -/
theorem numberAt_inj (hc : c ∈ (choicesOf (specs.getD i none)).map Prod.fst)
    (hd : d ∈ (choicesOf (specs.getD j none)).map Prod.fst)
    (h : numberAt specs last i c = numberAt specs last j d) : i = j ∧ c = d := by
  have hbefore : ∀ {i j : Nat} {c d : Trail}, c ∈ (choicesOf (specs.getD i none)).map Prod.fst → i < j →
      numberAt specs last i c < numberAt specs last j d := by
    intro i j c d hc hij
    have hle : numberAt specs last i c ≤ lastBefore specs last (i + 1) := by
      rw [lastBefore_succ]
      exact numberOf_le hc
    have hnext : lastBefore specs last (i + 1) ≤ lastBefore specs last j := lastBefore_le hij
    have hlt : lastBefore specs last j < numberAt specs last j d := by
      rw [numberAt, numberOf]
      omega
    omega
  rcases Nat.lt_trichotomy i j with hij | rfl | hij
  · exact absurd h (Nat.ne_of_lt (hbefore hc hij))
  · exact ⟨rfl, numberOf_inj hc h⟩
  · exact absurd h.symm (Nat.ne_of_lt (hbefore hd hij))

end

end CallSpec

open CallSpec

/-- A flat form follows its grammar: slot by slot it has the arguments from left to right, and a name stands
for the last choice of that name. -/
structure FlatSpec.Follows (num : Trail → Nat) (spec : Option CallSpec) (flat : FlatSpec) : Prop where
  length : flat.slots.length = (leavesOf spec).length
  slots : ∀ k trail leaf (s : Slot), (leavesOf spec)[k]? = some (trail, leaf) → flat.slots[k]? = some s →
    s.Tells num k trail leaf
  choices : ∀ name, flat.choices.get? name = (lastNamed? spec name).map num

theorem CallSpec.follows_flatten (spec : Option CallSpec) (last : Nat) :
    (flatten spec last).1.Follows (numberOf spec last) spec where
  length := by rw [slots_flatten, List.length_mapIdx]
  slots k trail leaf s hleaf hs := by
    rw [slots_flatten, List.getElem?_mapIdx, hleaf] at hs
    cases hs
    exact tells_slot _ k trail leaf
  choices := choices_flatten spec last

/-- The `k`-th slot of the `i`-th grammar, with the trail of its argument. -/
def CallSpec.SlotAt (specs : List (Option CallSpec)) (flats : List FlatSpec) (i k : Nat) (trail : Trail)
    (s : Slot) : Prop :=
  ∃ spec leaf flat, specs[i]? = some spec ∧ (leavesOf spec)[k]? = some (trail, leaf) ∧
    flats[i]? = some flat ∧ flat.slots[k]? = some s

/-- Grammars that are flattened one after the other. There is a number for each choice of each of them, no
two choices have the same, and the flat forms follow their grammars by these numbers. So two slots, be they of
one grammar or of two, have a number in common if and only if they are of one grammar and there is a choice
around both; and their innermost choices are the same if and only if their numbers are. -/
theorem flattenEach_tells (specs : List (Option CallSpec)) (last : Nat) :
    let flats := (flattenEach specs last).1
    flats.length = specs.length ∧ ∃ num : Nat → Trail → Nat,
      (∀ i c, 0 < num i c) ∧
      (∀ i j, ∀ c ∈ (choicesOf (specs.getD i none)).map Prod.fst,
        ∀ d ∈ (choicesOf (specs.getD j none)).map Prod.fst, num i c = num j d → i = j ∧ c = d) ∧
      (∀ i spec (flat : FlatSpec), specs[i]? = some spec → flats[i]? = some flat → flat.Follows (num i) spec) ∧
      ∀ i k trail s, SlotAt specs flats i k trail s → ∀ j m trail' t, SlotAt specs flats j m trail' t →
        ((∃ g, g ∈ s.groups ∧ g ∈ t.groups) ↔
          i = j ∧ ∃ c o o', (c, o) ∈ taken trail ∧ (c, o') ∈ taken trail') ∧
        (s.group ≠ 0 ∧ s.group = t.group ↔
          i = j ∧ ∃ c o o', (taken trail).getLast? = some (c, o) ∧
            (taken trail').getLast? = some (c, o')) := by
  intro flats
  have hflats : ∀ i, flats[i]? = specs[i]?.map fun spec => (flatten spec (lastBefore specs last i)).1 :=
    flattenEach_getElem? specs last
  have hpos : ∀ i c, 0 < numberAt specs last i c := fun i c => by
    rw [numberAt, numberOf]
    omega
  have hfollows : ∀ i spec (flat : FlatSpec), specs[i]? = some spec → flats[i]? = some flat →
      flat.Follows (numberAt specs last i) spec := by
    intro i spec flat hspec hflat
    rw [hflats, hspec] at hflat
    cases hflat
    have hnumber : numberAt specs last i = numberOf spec (lastBefore specs last i) := by
      funext c
      simp [numberAt, List.getD, hspec]
    rw [hnumber]
    exact follows_flatten spec _
  -- What a slot knows, and that the choices on its trail are choices of its grammar.
  have hslot : ∀ {i k trail s}, SlotAt specs flats i k trail s →
      (∃ leaf, s.Tells (numberAt specs last i) k trail leaf) ∧
      ∀ c o, (c, o) ∈ taken trail → c ∈ (choicesOf (specs.getD i none)).map Prod.fst := by
    rintro i k trail s ⟨spec, leaf, flat, hspec, hleaf, hflat, hs⟩
    refine ⟨⟨leaf, (hfollows i spec flat hspec hflat).slots k trail leaf s hleaf hs⟩, fun c o hc => ?_⟩
    rw [List.getD, hspec]
    exact mem_choicesOf (List.mem_of_getElem? hleaf) hc
  refine ⟨length_flattenEach specs last, numberAt specs last, hpos, fun i j c hc d hd => numberAt_inj hc hd, hfollows,
    fun i k trail s hs j m trail' t ht => ?_⟩
  obtain ⟨⟨leaf, hs⟩, hchoices⟩ := hslot hs
  obtain ⟨⟨leaf', ht⟩, hchoices'⟩ := hslot ht
  refine ⟨⟨?_, ?_⟩, ⟨?_, ?_⟩⟩
  · rintro ⟨g, hg, hg'⟩
    rw [hs.groups, List.mem_map] at hg
    rw [ht.groups, List.mem_map] at hg'
    obtain ⟨⟨c, o⟩, hc, rfl⟩ := hg
    obtain ⟨⟨d, o'⟩, hd, heq⟩ := hg'
    obtain ⟨rfl, rfl⟩ := numberAt_inj (hchoices' d o' hd) (hchoices c o hc) heq
    exact ⟨rfl, d, o, o', hc, hd⟩
  · rintro ⟨rfl, c, o, o', hc, hd⟩
    refine ⟨numberAt specs last i c, ?_, ?_⟩
    · rw [hs.groups]
      exact List.mem_map_of_mem (f := fun x => numberAt specs last i x.1) hc
    · rw [ht.groups]
      exact List.mem_map_of_mem (f := fun x => numberAt specs last i x.1) hd
  · rintro ⟨hsome, heq⟩
    have hinner := hs.innermost
    have hinner' := ht.innermost
    cases hlast : (taken trail).getLast? with
    | none =>
      rw [hlast] at hinner
      exact absurd (Prod.mk.inj hinner).1 hsome
    | some x =>
      obtain ⟨c, o⟩ := x
      cases hlast' : (taken trail').getLast? with
      | none =>
        rw [hlast'] at hinner'
        exact absurd (heq.trans (Prod.mk.inj hinner').1) hsome
      | some y =>
        obtain ⟨d, o'⟩ := y
        rw [hlast] at hinner
        rw [hlast'] at hinner'
        obtain ⟨rfl, rfl⟩ := numberAt_inj (hchoices c o (List.mem_of_getLast? hlast))
          (hchoices' d o' (List.mem_of_getLast? hlast'))
          ((Prod.mk.inj hinner).1.symm.trans (heq.trans (Prod.mk.inj hinner').1))
        exact ⟨rfl, c, o, o', rfl, rfl⟩
  · rintro ⟨rfl, c, o, o', hlast, hlast'⟩
    have hinner := hs.innermost
    have hinner' := ht.innermost
    rw [hlast] at hinner
    rw [hlast'] at hinner'
    have hgroup := (Prod.mk.inj hinner).1
    refine ⟨?_, hgroup.trans (Prod.mk.inj hinner').1.symm⟩
    rw [hgroup]
    exact Nat.ne_of_gt (hpos i c)

end TileMind
