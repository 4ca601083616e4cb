import Mathlib.Data.List.Induction
import Mathlib.Data.List.Nodup
import TileMind.Proofs.Value.Lookup
import TileMind.Tile.CallSpec
import TileMind.Tile.Catalog

/-!
# TileMind.Proofs.Tile.Flattening

The tree of a grammar and its flat form. A trail says how to get from the top of a grammar down to one of its
nodes. The nodes of a grammar, in the order of the grammar, are told apart by their trails; flattening visits
them in that order, and an argument becomes a slot with what its trail passes.

* `CallSpec.leaves`, `CallSpec.choices`: the arguments and the choices, with their trails.
* `CallSpec.nodup_nodes`: different nodes have different trails.
* `CallSpec.exists_choice_of_option`: a trail that takes an option has passed a choice.
* `CallSpec.flattenInto_eq_foldl`: flattening as a walk over the nodes.
* `CallSpec.Numbers`, `exists_numbers`: the numbers of the choices, in the order of the grammar.
* `CallSpec.Lays`, `exists_lays`: what the slots of a tile know about their arguments.
-/

namespace TileMind

/-- Slots are told apart by their numbers. -/
def FlatSpec.Distinct (f : FlatSpec) : Prop := ∀ s ∈ f.slots, ∀ o ∈ f.slots, s.id = o.id → s = o

namespace CallSpec

/-! ## The nodes of a grammar -/

/-- A turn on the way down. -/
inductive Turn where
  | item (i : Nat)
  | option (i : Nat)
  | optional
  | repeated
  | branch (choice : String) (absent : Bool)
deriving DecidableEq, Repr

/-- The turns from the top of a grammar down to one of its nodes. -/
abbrev Trail := List Turn

/-- The grammars right below the top of a grammar. -/
def parts : CallSpec → List (Turn × CallSpec)
  | .arg _ => []
  | .seq items | .bag items => items.mapIdx fun i item => (.item i, item)
  | .choice _ options => options.mapIdx fun i option => (.option i, option)
  | .optional item => [(.optional, item)]
  | .repeated item _ _ => [(.repeated, item)]
  | .conditional name present absent =>
    (.branch name false, present) :: absent.toList.map fun absent => (.branch name true, absent)

/-- Nodes seen from one turn further up. -/
def behind (turn : Turn) (nodes : List (Trail × CallSpec)) : List (Trail × CallSpec) :=
  nodes.map fun x => (turn :: x.1, x.2)

mutual

/-- The grammar and everything below it, from the top down and from left to right. -/
def nodes : CallSpec → List (Trail × CallSpec)
  | e@(.arg _) => [([], e)]
  | e@(.seq items) | e@(.bag items) => ([], e) :: nodesAll .item 0 items
  | e@(.choice _ options) => ([], e) :: nodesAll .option 0 options
  | e@(.optional item) => ([], e) :: behind .optional item.nodes
  | e@(.repeated item _ _) => ([], e) :: behind .repeated item.nodes
  | e@(.conditional name present none) => ([], e) :: behind (.branch name false) present.nodes
  | e@(.conditional name present (some absent)) =>
    ([], e) :: (behind (.branch name false) present.nodes ++ behind (.branch name true) absent.nodes)
termination_by structural spec => spec

def nodesAll (turn : Nat → Turn) : Nat → List CallSpec → List (Trail × CallSpec)
  | _, [] => []
  | i, item :: rest => behind (turn i) item.nodes ++ nodesAll turn (i + 1) rest
termination_by structural _ items => items

end

def leaf? : Trail × CallSpec → Option (Trail × ArgSpec)
  | (trail, .arg leaf) => some (trail, leaf)
  | _ => none

def choice? : Trail × CallSpec → Option (Trail × String)
  | (trail, .choice name _) => some (trail, name)
  | _ => none

def leaves (spec : CallSpec) : List (Trail × ArgSpec) := spec.nodes.filterMap leaf?

def choices (spec : CallSpec) : List (Trail × String) := spec.nodes.filterMap choice?

/-- The choice that a name stands for: the last one of that name. -/
def named? (spec : CallSpec) (name : String) : Option Trail :=
  (spec.choices.reverse.find? fun x => x.2 = name && x.2 ≠ "").map Prod.fst

/-! ## Parts -/

theorem nodesAll_eq (turn : Nat → Turn) (i : Nat) (items : List CallSpec) :
    nodesAll turn i items =
      (items.mapIdx fun j item => (turn (i + j), item)).flatMap fun x => behind x.1 x.2.nodes := by
  induction items generalizing i with
  | nil => rfl
  | cons item items ih =>
    rw [nodesAll, ih, List.mapIdx_cons, List.flatMap_cons]
    simp only [Nat.add_zero, Nat.add_right_comm, ← Nat.add_assoc]

theorem nodes_eq (spec : CallSpec) :
    spec.nodes = ([], spec) :: spec.parts.flatMap fun x => behind x.1 x.2.nodes := by
  cases spec with
  | conditional name present absent =>
    cases absent <;> simp [nodes, parts]
  | seq items | bag items | choice _ items => simp [nodes, parts, nodesAll_eq]
  | _ => simp [nodes, parts]

theorem mem_nodes_self (spec : CallSpec) : ([], spec) ∈ spec.nodes := by
  rw [nodes_eq]
  exact List.mem_cons_self

theorem induction_parts {P : CallSpec → Prop} (h : ∀ spec : CallSpec, (∀ x ∈ spec.parts, P x.2) → P spec)
    (spec : CallSpec) : P spec := by
  have hidx {turn : Nat → Turn} {items : List CallSpec} (hitems : ∀ item ∈ items, P item) :
      ∀ x ∈ items.mapIdx fun i item => (turn i, item), P x.2 := by
    intro x hx
    obtain ⟨i, hi, rfl⟩ := List.mem_mapIdx.mp hx
    exact hitems _ (List.getElem_mem hi)
  refine @CallSpec.rec P (fun items => ∀ item ∈ items, P item) (fun item? => ∀ item ∈ item?, P item)
    ?arg ?seq ?bag ?choice ?optional ?repeated ?conditional ?nil ?cons ?none ?some spec
  case arg => exact fun arg => h _ (by simp [parts])
  case seq | bag => exact fun items ih => h _ (hidx ih)
  case choice => exact fun name options ih => h _ (hidx ih)
  case optional => exact fun item ih => h _ (by simpa [parts] using ih)
  case repeated => exact fun item _ _ ih => h _ (by simpa [parts] using ih)
  case conditional =>
    intro name present absent hpresent habsent
    refine h _ fun x hx => ?_
    rcases List.mem_cons.mp hx with rfl | hx
    · exact hpresent
    · obtain ⟨item, hitem, rfl⟩ := List.mem_map.mp hx
      exact habsent item (Option.mem_toList.mp hitem)
  case nil => simp
  case cons => exact fun item items hitem hitems => List.forall_mem_cons.mpr ⟨hitem, hitems⟩
  case none => simp
  case some => simp

/-- Different parts are behind different turns. -/
theorem pairwise_parts (spec : CallSpec) : spec.parts.Pairwise fun x y => x.1 ≠ y.1 := by
  have hidx {turn : Nat → Turn} (hturn : ∀ i j, turn i = turn j → i = j) (items : List CallSpec) :
      (items.mapIdx fun i item => (turn i, item)).Pairwise fun x y => x.1 ≠ y.1 := by
    rw [List.pairwise_iff_getElem]
    intro i j hi hj hlt heq
    simp only [List.getElem_mapIdx] at heq
    exact Nat.ne_of_lt hlt (hturn i j heq)
  cases spec with
  | seq items | bag items => exact hidx (fun _ _ h => Turn.item.inj h) items
  | choice _ options => exact hidx (fun _ _ h => Turn.option.inj h) options
  | conditional name present absent => cases absent <;> simp [parts]
  | _ => simp [parts]

/-! ## Trails -/

theorem nodup_nodes (spec : CallSpec) : (spec.nodes.map Prod.fst).Nodup := by
  induction spec using induction_parts with
  | h spec ih =>
    have hbehind {turn : Turn} {nodes : List (Trail × CallSpec)} :
        (behind turn nodes).map Prod.fst = (nodes.map Prod.fst).map (turn :: ·) := by
      simp [behind]
    rw [nodes_eq, List.map_cons, List.map_flatMap, List.nodup_cons, List.nodup_flatMap]
    refine ⟨?_, fun x hx => ?_, spec.pairwise_parts.imp fun {x y} hne => ?_⟩
    · simp [behind]
    · rw [hbehind]
      exact (ih x hx).map List.cons_injective
    · refine List.disjoint_left.mpr fun trail htrail htrail' => ?_
      dsimp only at htrail htrail'
      rw [hbehind] at htrail htrail'
      obtain ⟨_, -, rfl⟩ := List.mem_map.mp htrail
      obtain ⟨_, -, heq⟩ := List.mem_map.mp htrail'
      exact hne (List.cons.inj heq).1.symm

theorem mem_nodes_cons {spec node : CallSpec} {turn : Turn} {trail : Trail} :
    (turn :: trail, node) ∈ spec.nodes ↔ ∃ part, (turn, part) ∈ spec.parts ∧ (trail, node) ∈ part.nodes := by
  rw [nodes_eq]
  simp [behind]

/-- What a node has passed on its way is there. -/
theorem exists_node_of_append {spec node : CallSpec} {turn : Turn} {before after : Trail}
    (h : (before ++ turn :: after, node) ∈ spec.nodes) :
    ∃ passed part, (before, passed) ∈ spec.nodes ∧ (turn, part) ∈ passed.parts := by
  induction before generalizing spec with
  | nil =>
    obtain ⟨part, hpart, -⟩ := mem_nodes_cons.mp h
    exact ⟨spec, part, mem_nodes_self spec, hpart⟩
  | cons first before ih =>
    obtain ⟨part, hpart, hnode⟩ := mem_nodes_cons.mp h
    obtain ⟨passed, part', hpassed, hpart'⟩ := ih hnode
    exact ⟨passed, part', mem_nodes_cons.mpr ⟨part, hpart, hpassed⟩, hpart'⟩

theorem mem_leaves {spec : CallSpec} {trail : Trail} {leaf : ArgSpec} :
    (trail, leaf) ∈ spec.leaves ↔ (trail, .arg leaf) ∈ spec.nodes := by
  rw [leaves, List.mem_filterMap]
  constructor
  · rintro ⟨⟨_, node⟩, hnode, heq⟩
    cases node <;> cases heq
    exact hnode
  · exact fun h => ⟨_, h, rfl⟩

/-- A node that takes an option has passed a choice. -/
theorem exists_choice_of_option {spec node : CallSpec} {i : Nat} {before after : Trail}
    (h : (before ++ .option i :: after, node) ∈ spec.nodes) : before ∈ spec.choices.map Prod.fst := by
  obtain ⟨passed, part, hpassed, hpart⟩ := exists_node_of_append h
  cases passed with
  | choice name options =>
    rw [List.mem_map]
    exact ⟨(before, name), List.mem_filterMap.mpr ⟨_, hpassed, rfl⟩, rfl⟩
  | _ => simp [parts, List.mem_mapIdx] at hpart

theorem nodup_choices (spec : CallSpec) : (spec.choices.map Prod.fst).Nodup := by
  have hsub : ∀ nodes : List (Trail × CallSpec),
      ((nodes.filterMap choice?).map Prod.fst).Sublist (nodes.map Prod.fst) := by
    intro nodes
    induction nodes with
    | nil => exact .slnil
    | cons x nodes ih =>
      obtain ⟨trail, node⟩ := x
      rw [List.filterMap_cons]
      cases node with
      | choice name options => exact ih.cons_cons trail
      | _ => exact ih.cons trail
  exact spec.nodup_nodes.sublist (hsub spec.nodes)

theorem choices_eq (spec : CallSpec) :
    spec.choices = (choice? ([], spec)).toList ++
      spec.parts.flatMap fun x => x.2.choices.map fun y => (x.1 :: y.1, y.2) := by
  have hbehind (turn : Turn) (nodes : List (Trail × CallSpec)) :
      (behind turn nodes).filterMap choice? =
        (nodes.filterMap choice?).map fun y => (turn :: y.1, y.2) := by
    rw [behind, List.filterMap_map, List.map_filterMap]
    refine List.filterMap_congr fun x _ => ?_
    obtain ⟨trail, node⟩ := x
    cases node <;> rfl
  rw [choices, nodes_eq, List.filterMap_cons, List.filterMap_flatMap]
  simp only [hbehind]
  cases choice? ([], spec) <;> rfl

/-! ## Along a trail -/

/-- What surrounds a grammar after one more turn. If that is an option, it is one of the choice `group`. -/
def Around.enter (around : Around) (group : Nat) : Turn → Around
  | .item _ => around
  | .option i => { around with choices := (group, i) :: around.choices }
  | .optional => { around with optional := true }
  | .repeated => { around with repeats := true }
  | .branch name absent => { around with condition := some ⟨name, absent⟩ }

/-- What surrounds a grammar at the end of a trail, with choices numbered by their trails. -/
def Around.along (num : Trail → Nat) : Around → Trail → Around
  | around, [] => around
  | around, turn :: trail => along (fun t => num (turn :: t)) (around.enter (num []) turn) trail

section

variable {num : Trail → Nat} {around : Around} {before after : Trail}

theorem Around.along_append : around.along num (before ++ after) =
    (around.along num before).along (fun t => num (before ++ t)) after := by
  induction before generalizing num around with
  | nil => rfl
  | cons turn before ih => exact ih

theorem Around.choices_along (h : ∀ i, Turn.option i ∉ after) :
    (around.along num after).choices = around.choices := by
  induction after generalizing num around with
  | nil => rfl
  | cons turn after ih =>
    rw [along, ih fun i hmem => h i (List.mem_cons_of_mem _ hmem)]
    cases turn with
    | option i => exact absurd List.mem_cons_self (h i)
    | _ => rfl

theorem Around.condition_along (h : ∀ name absent, Turn.branch name absent ∉ after) :
    (around.along num after).condition = around.condition := by
  induction after generalizing num around with
  | nil => rfl
  | cons turn after ih =>
    rw [along, ih fun name absent hmem => h name absent (List.mem_cons_of_mem _ hmem)]
    cases turn with
    | branch name absent => exact absurd List.mem_cons_self (h name absent)
    | _ => rfl

/-- The innermost choice is the last one that the trail takes an option of. -/
theorem Around.choices_along_option {i : Nat} (h : ∀ i, Turn.option i ∉ after) :
    (around.along num (before ++ .option i :: after)).choices =
      (num before, i) :: (around.along num before).choices := by
  rw [along_append, along, choices_along h, enter, List.append_nil]

theorem Around.condition_along_branch {name : String} {absent : Bool}
    (h : ∀ name absent, Turn.branch name absent ∉ after) :
    (around.along num (before ++ .branch name absent :: after)).condition = some ⟨name, absent⟩ := by
  rw [along_append, along, condition_along h, enter]

theorem Around.mem_choices_along {trail : Trail} {group : Nat} :
    group ∈ (around.along num trail).choices.map Prod.fst ↔ group ∈ around.choices.map Prod.fst ∨
      ∃ before i after, trail = before ++ Turn.option i :: after ∧ group = num before := by
  induction trail generalizing num around with
  | nil => simp [along]
  | cons turn trail ih =>
    rw [along, ih]
    have hturn : group ∈ (around.enter (num []) turn).choices.map Prod.fst ↔
        group ∈ around.choices.map Prod.fst ∨ ∃ i, turn = .option i ∧ group = num [] := by
      cases turn <;> simp [enter, or_comm]
    rw [hturn, or_assoc]
    refine or_congr_right ⟨?_, ?_⟩
    · rintro (⟨i, rfl, hgroup⟩ | ⟨before, i, after, rfl, hgroup⟩)
      · exact ⟨[], i, trail, rfl, hgroup⟩
      · exact ⟨turn :: before, i, after, rfl, hgroup⟩
    · rintro ⟨before, i, after, heq, hgroup⟩
      cases before with
      | nil =>
        cases heq
        exact .inl ⟨i, rfl, hgroup⟩
      | cons first before =>
        cases heq
        exact .inr ⟨before, i, after, rfl, hgroup⟩

end

/-! ## Flattening as a walk -/

/-- Flattens a node by itself. -/
def visit (around : Around) (acc : FlatSpec × Nat) : CallSpec → FlatSpec × Nat
  | .arg leaf =>
    ({ acc.1 with slots := acc.1.slots ++ [around.slot acc.1.slots.length leaf] }, acc.2)
  | .choice name _ =>
    ({ acc.1 with
        choices := if name = "" then acc.1.choices else acc.1.choices.insert name (acc.2 + 1) },
      acc.2 + 1)
  | _ => acc

theorem flattenAll_eq (items : List CallSpec) (i group : Nat) (around : Around) (acc : FlatSpec × Nat) :
    flattenAll items around acc = (items.mapIdx fun j item => (Turn.item (i + j), item)).foldl
      (fun acc x => flattenInto x.2 (around.enter group x.1) acc) acc := by
  induction items generalizing i acc with
  | nil => rfl
  | cons item items ih =>
    rw [flattenAll, ih (i + 1), List.mapIdx_cons, List.foldl_cons]
    simp only [Nat.add_right_comm, ← Nat.add_assoc]
    rfl

theorem flattenOptions_eq (items : List CallSpec) (i group : Nat) (around : Around) (acc : FlatSpec × Nat) :
    flattenOptions items i group around acc = (items.mapIdx fun j item => (Turn.option (i + j), item)).foldl
      (fun acc x => flattenInto x.2 (around.enter group x.1) acc) acc := by
  induction items generalizing i acc with
  | nil => rfl
  | cons item items ih =>
    rw [flattenOptions, ih (i + 1), List.mapIdx_cons, List.foldl_cons]
    simp only [Nat.add_right_comm, ← Nat.add_assoc]
    rfl

/-- Flattening visits the top and goes on to the parts. -/
theorem flattenInto_eq (spec : CallSpec) (around : Around) (acc : FlatSpec × Nat) :
    flattenInto spec around acc = spec.parts.foldl
      (fun acc' x => flattenInto x.2 (around.enter (visit around acc spec).2 x.1) acc')
      (visit around acc spec) := by
  cases spec with
  | seq items | bag items =>
    rw [flattenInto, flattenAll_eq items 0 acc.2]
    simp only [Nat.zero_add]
    rfl
  | choice name options =>
    obtain ⟨flat, last⟩ := acc
    rw [flattenInto, flattenOptions_eq]
    simp only [Nat.zero_add]
    rfl
  | conditional name present absent => cases absent <;> rfl
  | _ => rfl

/-- The choices are numbered in turn, from `last + 1` on. -/
def Numbers (num : Trail → Nat) (last : Nat) (choices : List (Trail × String)) : Prop :=
  choices.map (fun x => num x.1) = List.range' (last + 1) choices.length

section

variable {num : Trail → Nat} {last : Nat} {spec : CallSpec} {around : Around} {acc : FlatSpec × Nat}

theorem numbers_append {xs ys : List (Trail × String)} :
    Numbers num last (xs ++ ys) ↔ Numbers num last xs ∧ Numbers num (last + xs.length) ys := by
  unfold Numbers
  rw [List.map_append, List.length_append, ← List.range'_append_1, Nat.add_right_comm]
  constructor
  · exact fun h => List.append_inj h (by simp)
  · rintro ⟨hxs, hys⟩
    rw [hxs, hys]

theorem snd_foldl_visit (nodes : List (Trail × CallSpec)) :
    (nodes.foldl (fun acc x => visit (around.along num x.1) acc x.2) acc).2 =
      acc.2 + (nodes.filterMap choice?).length := by
  induction nodes generalizing acc with
  | nil => rfl
  | cons x nodes ih =>
    obtain ⟨trail, node⟩ := x
    rw [List.foldl_cons, ih, List.filterMap_cons]
    cases node with
    | choice name options => exact Nat.add_right_comm _ _ _
    | _ => rfl

theorem foldl_parts {parts : List (Turn × CallSpec)}
    (ih : ∀ x ∈ parts, ∀ {num : Trail → Nat} {around : Around} {acc : FlatSpec × Nat},
      Numbers num acc.2 x.2.choices → flattenInto x.2 around acc =
        x.2.nodes.foldl (fun acc y => visit (around.along num y.1) acc y.2) acc)
    (h : Numbers num acc.2 (parts.flatMap fun x => x.2.choices.map fun y => (x.1 :: y.1, y.2))) :
    parts.foldl (fun acc x => flattenInto x.2 (around.enter (num []) x.1) acc) acc =
      (parts.flatMap fun x => behind x.1 x.2.nodes).foldl
        (fun acc y => visit (around.along num y.1) acc y.2) acc := by
  induction parts generalizing acc with
  | nil => rfl
  | cons x parts ihparts =>
    rw [List.flatMap_cons, numbers_append] at h
    obtain ⟨hfirst, hrest⟩ := h
    have hpart : Numbers (fun t => num (x.1 :: t)) acc.2 x.2.choices := by
      simpa [Numbers, Function.comp_def] using hfirst
    have hnodes : flattenInto x.2 (around.enter (num []) x.1) acc = _ := ih x List.mem_cons_self hpart
    rw [List.foldl_cons, List.flatMap_cons, List.foldl_append, behind, List.foldl_map, hnodes]
    refine ihparts (fun y hy => ih y (List.mem_cons_of_mem _ hy)) ?_
    rw [snd_foldl_visit]
    simpa [choices] using hrest

/-- Flattening is a walk over the nodes. -/
theorem flattenInto_eq_foldl (h : Numbers num acc.2 spec.choices) :
    flattenInto spec around acc =
      spec.nodes.foldl (fun acc x => visit (around.along num x.1) acc x.2) acc := by
  induction spec using induction_parts generalizing num around acc with
  | h spec ih =>
    rw [choices_eq, numbers_append] at h
    obtain ⟨htop, hparts⟩ := h
    have hlast : (visit around acc spec).2 = acc.2 + (choice? ([], spec)).toList.length := by
      cases spec <;> rfl
    -- Only a choice has options, and it has just got its number.
    have henter : ∀ x ∈ spec.parts, around.enter (visit around acc spec).2 x.1 = around.enter (num []) x.1 := by
      intro x hx
      cases spec with
      | choice name options =>
        have hnum : num [] = acc.2 + 1 := by simpa [Numbers, choice?] using htop
        rw [hnum]
        rfl
      | seq items | bag items =>
        obtain ⟨i, hi, rfl⟩ := List.mem_mapIdx.mp hx
        rfl
      | conditional name present absent => 
        rcases List.mem_cons.mp hx with rfl | hx
        · rfl
        · obtain ⟨item, hitem, rfl⟩ := List.mem_map.mp hx
          rfl
      | optional item | repeated item _ _ =>
        rw [List.mem_singleton.mp hx]
        rfl
      | arg leaf => cases hx
    rw [flattenInto_eq, nodes_eq, List.foldl_cons, ← foldl_parts ih (hlast ▸ hparts)]
    exact List.foldl_ext _ _ _ fun acc' x hx => by rw [henter x hx]

theorem slots_foldl_visit (nodes : List (Trail × CallSpec)) :
    (nodes.foldl (fun acc x => visit (around.along num x.1) acc x.2) acc).1.slots =
      acc.1.slots ++ (nodes.filterMap leaf?).mapIdx fun k x =>
        (around.along num x.1).slot (acc.1.slots.length + k) x.2 := by
  induction nodes generalizing acc with
  | nil => simp
  | cons x nodes ih =>
    obtain ⟨trail, node⟩ := x
    rw [List.foldl_cons, ih, List.filterMap_cons]
    cases node with
    | arg leaf => simp [visit, leaf?, Nat.add_right_comm, ← Nat.add_assoc]
    | _ => rfl

theorem choices_foldl_visit {nodes : List (Trail × CallSpec)} (h : Numbers num acc.2 (nodes.filterMap choice?)) :
    (nodes.foldl (fun acc x => visit (around.along num x.1) acc x.2) acc).1.choices =
      (nodes.filterMap choice?).foldl
        (fun f x => if x.2 = "" then f else f.insert x.2 (num x.1)) acc.1.choices := by
  induction nodes generalizing acc with
  | nil => rfl
  | cons x nodes ih =>
    obtain ⟨trail, node⟩ := x
    rw [List.filterMap_cons] at h ⊢
    rw [List.foldl_cons]
    cases node with
    | choice name options =>
      have hsplit : Numbers num acc.2 ([(trail, name)] ++ nodes.filterMap choice?) := h
      rw [numbers_append] at hsplit
      have hnum : num trail = acc.2 + 1 := by simpa [Numbers] using hsplit.1
      rw [ih hsplit.2]
      simp only [visit, choice?, List.foldl_cons, hnum]
    | _ => exact ih h

/-- A name stands for the last choice that was given it. -/
theorem get?_foldl_named (choices : List (Trail × String)) (name : String) :
    (choices.foldl (fun f x => if x.2 = "" then f else f.insert x.2 (num x.1)) ({} : Fields Nat)).get? name =
      ((choices.reverse.find? fun x => x.2 = name && x.2 ≠ "").map Prod.fst).map num := by
  induction choices using List.reverseRecOn with
  | nil => rfl
  | append_singleton choices x ih =>
    rw [List.foldl_append, List.reverse_append, List.reverse_singleton, List.singleton_append,
      List.find?_cons, List.foldl_cons, List.foldl_nil]
    by_cases hnone : x.2 = ""
    · simp [hnone, ih]
    · by_cases hname : name = x.2
      · simp [hnone, hname, Fields.get?_insert]
      · simp [hnone, hname, Ne.symm hname, Fields.get?_insert, ih]

/-! ## The slots of a tile -/

/-- A flat form knows the grammar: its slots are the arguments, with what their trails pass, and names of
choices stand for their numbers. -/
structure Lays (num : Trail → Nat) (spec : CallSpec) (flat : FlatSpec) : Prop where
  inj : ∀ c ∈ spec.choices.map Prod.fst, ∀ c' ∈ spec.choices.map Prod.fst, num c = num c' → c = c'
  pos : ∀ c ∈ spec.choices.map Prod.fst, 0 < num c
  slots : flat.slots = spec.leaves.mapIdx fun k x => Catalog.typed ((Around.along num {} x.1).slot k x.2)
  named : ∀ name, flat.choices.get? name = (spec.named? name).map num

/-- The number of a choice when `last` numbers have been given out before. -/
def number (spec : CallSpec) (last : Nat) (c : Trail) : Nat :=
  last + 1 + (spec.choices.map Prod.fst).idxOf c

theorem numbers_number (spec : CallSpec) (last : Nat) : Numbers (spec.number last) last spec.choices := by
  refine List.ext_getElem (by simp) fun i hi _ => ?_
  have hlt : i < (spec.choices.map Prod.fst).length := by simpa using hi
  have hidx := spec.nodup_choices.idxOf_getElem i hlt
  rw [List.getElem_map] at hidx
  simp [number, hidx]

theorem exists_numbers (spec : CallSpec) (last : Nat) : ∃ num, Numbers num last spec.choices :=
  ⟨_, spec.numbers_number last⟩

end

end CallSpec

/-- The slots of a tile come from a grammar. -/
def Tile.LaidOut (tile : Tile) (spec : CallSpec) : Prop :=
  ∃ last, tile.spec = { (CallSpec.flatten (some spec) last).1 with
    slots := (CallSpec.flatten (some spec) last).1.slots.map Catalog.typed }

namespace CallSpec

theorem exists_lays {tile : Tile} {spec : CallSpec} (h : tile.LaidOut spec) : ∃ num, Lays num spec tile.spec := by
  obtain ⟨last, htile⟩ := h
  obtain ⟨num, hnum⟩ := exists_numbers spec last
  have hflat : flatten (some spec) last =
      spec.nodes.foldl (fun acc x => visit (Around.along num {} x.1) acc x.2) ({}, last) :=
    flattenInto_eq_foldl hnum
  have hall : (spec.choices.map Prod.fst).map num = List.range' (last + 1) spec.choices.length := by
    rw [List.map_map]
    exact hnum
  refine ⟨num, List.inj_on_of_nodup_map (hall ▸ List.nodup_range'), fun c hc => ?_, ?_, fun name => ?_⟩
  · have hmem := List.mem_map_of_mem (f := num) hc
    rw [hall, List.mem_range'_1] at hmem
    omega
  · rw [htile, hflat, slots_foldl_visit]
    refine List.ext_getElem (by simp [leaves]) fun i _ _ => ?_
    simp [leaves]
  · rw [htile, hflat, choices_foldl_visit hnum, get?_foldl_named]
    rfl

/-- The argument of a slot is in the choice that the name stands for. -/
def InChoice (spec : CallSpec) (name : String) (slot : Nat) : Prop :=
  ∃ c i after leaf, spec.named? name = some c ∧ spec.leaves[slot]? = some (c ++ .option i :: after, leaf)

theorem mem_choices_of_named? {spec : CallSpec} {name : String} {c : Trail} (h : spec.named? name = some c) :
    c ∈ spec.choices.map Prod.fst := by
  obtain ⟨x, hx, rfl⟩ := Option.map_eq_some_iff.mp h
  exact List.mem_map_of_mem (List.mem_reverse.mp (List.mem_of_find?_eq_some hx))

/-- The type of a bare value says nothing about the place of its slot. -/
theorem typed_eq (s : Slot) : ∃ arg, Catalog.typed s = { s with arg := arg } := by
  unfold Catalog.typed
  split
  · exact ⟨_, rfl⟩
  · exact ⟨s.arg, rfl⟩

theorem id_typed (around : Around) (k : Nat) (leaf : ArgSpec) :
    (Catalog.typed (around.slot k leaf)).id = k := by
  obtain ⟨arg, heq⟩ := typed_eq (around.slot k leaf)
  rw [heq]
  rfl

namespace Lays

variable {num : Trail → Nat} {spec : CallSpec} {flat : FlatSpec} (h : Lays num spec flat)
include h

theorem mem_slots {s : Slot} : s ∈ flat.slots ↔ ∃ x, spec.leaves[s.id]? = some x ∧
    s = Catalog.typed ((Around.along num {} x.1).slot s.id x.2) := by
  rw [h.slots, List.mem_mapIdx]
  constructor
  · rintro ⟨k, hk, rfl⟩
    rw [id_typed]
    exact ⟨spec.leaves[k], List.getElem?_eq_getElem hk, rfl⟩
  · rintro ⟨x, hx, hs⟩
    obtain ⟨hk, hget⟩ := List.getElem?_eq_some_iff.mp hx
    exact ⟨s.id, hk, by rw [hget, ← hs]⟩

theorem distinct : flat.Distinct := by
  intro s hs o ho hid
  obtain ⟨x, hx, hs⟩ := h.mem_slots.mp hs
  obtain ⟨y, hy, ho⟩ := h.mem_slots.mp ho
  rw [hid] at hx hs
  obtain rfl : x = y := Option.some.inj (hx.symm.trans hy)
  rw [hs, ← ho]

theorem exists_slot {k : Nat} {x : Trail × ArgSpec} (hx : spec.leaves[k]? = some x) :
    ∃ s ∈ flat.slots, s.id = k := by
  obtain ⟨hk, -⟩ := List.getElem?_eq_some_iff.mp hx
  refine ⟨_, ?_, id_typed (Around.along num {} spec.leaves[k].1) k spec.leaves[k].2⟩
  rw [h.slots, List.mem_mapIdx]
  exact ⟨k, hk, rfl⟩

/-- A slot knows what its trail passes. -/
theorem eq_slot {s : Slot} (hs : s ∈ flat.slots) {trail : Trail} {leaf : ArgSpec}
    (hleaf : spec.leaves[s.id]? = some (trail, leaf)) : s = (Around.along num {} trail).slot s.id s.arg := by
  obtain ⟨x, hx, heq⟩ := h.mem_slots.mp hs
  obtain rfl : x = (trail, leaf) := Option.some.inj (hx.symm.trans hleaf)
  obtain ⟨arg, htyped⟩ := typed_eq ((Around.along num {} trail).slot s.id leaf)
  have harg := heq.trans htyped
  rw [congrArg Slot.arg harg]
  exact harg

theorem innermost {s : Slot} (hs : s ∈ flat.slots) {before after : Trail} {i : Nat} {leaf : ArgSpec}
    (hleaf : spec.leaves[s.id]? = some (before ++ .option i :: after, leaf))
    (hinner : ∀ i, Turn.option i ∉ after) : s.group = num before ∧ s.option = i := by
  rw [h.eq_slot hs hleaf]
  simp [Around.slot, Around.choices_along_option hinner]

theorem condition {s : Slot} (hs : s ∈ flat.slots) {before after : Trail} {name : String} {absent : Bool}
    {leaf : ArgSpec} (hleaf : spec.leaves[s.id]? = some (before ++ .branch name absent :: after, leaf))
    (hinner : ∀ name absent, Turn.branch name absent ∉ after) : s.condition = some ⟨name, absent⟩ := by
  rw [h.eq_slot hs hleaf, Around.slot, Around.condition_along_branch hinner]

/-- The arguments in a named choice are the slots with its number. -/
theorem mem_groups {s : Slot} (hs : s ∈ flat.slots) {name : String} {c : Trail}
    (hname : spec.named? name = some c) :
    num c ∈ s.groups ↔ spec.InChoice name s.id := by
  obtain ⟨⟨trail, leaf⟩, hleaf, -⟩ := h.mem_slots.mp hs
  have hgroups : num c ∈ s.groups ↔ ∃ before i after,
      trail = before ++ .option i :: after ∧ num c = num before := by
    rw [h.eq_slot hs hleaf, Around.slot, List.map_reverse, List.mem_reverse, Around.mem_choices_along]
    simp
  rw [hgroups]
  constructor
  · rintro ⟨before, i, after, rfl, heq⟩
    have hbefore := exists_choice_of_option (mem_leaves.mp (List.mem_of_getElem? hleaf))
    rw [h.inj c (mem_choices_of_named? hname) before hbefore heq] at hname
    exact ⟨before, i, after, leaf, hname, hleaf⟩
  · rintro ⟨c', i, after, leaf', hname', hleaf'⟩
    obtain rfl : c = c' := Option.some.inj (hname.symm.trans hname')
    rw [hleaf, Option.some_inj, Prod.mk.injEq] at hleaf'
    exact ⟨c, i, after, hleaf'.1, rfl⟩

end Lays

end CallSpec
end TileMind
