import TileMind.Proofs.Registry.Cheapest
import TileMind.Proofs.Row.Settled

/-!
# TileMind.Proofs.Row.Resolution

Which overload is picked for an operator, in a graph of conversions that is affordable.

* `Conversions.Suits`, `Conversions.IsCheapest`: the specification. An overload suits operands of known type that
  some chain leads to its parameters; the first of the cheapest is wanted.
* `pickOverload_eq_none_iff`: none is picked if none suits.
* `cheapest_of_pickOverload`: what is picked is the first of the cheapest, unless a sum of costs overflows.
* `exact_of_cheapest`: nothing else costs as little as an overload for exactly the types of the operands.
-/

namespace TileMind

namespace Conversions

/-- The route that an operand takes to its parameter. One of unknown type takes none. -/
def operandRoute? (r : Conversions) (type param : TypeId) : Option Route :=
  if type = .unknown then some ⟨[], 0⟩ else r.route? type param

/-- Every operand of known type is led to its parameter. -/
def Suits (r : Conversions) (types params : List TypeId) : Prop :=
  List.Forall₂ (fun type param => type = .unknown ∨ ∃ path, r.Chain type param path) types params

/-- What it costs to lead all operands to their parameters, each in the cheapest way. -/
def expense (r : Conversions) (types params : List TypeId) : Int :=
  (List.zipWith (fun type param => ((r.operandRoute? type param).map Route.cost).getD 0) types params).sum

/-- An overload that suits the operands, and the first of the cheapest ones among those that do. -/
structure IsCheapest (r : Conversions) (types : List TypeId) (overloads : List Overload) (best : Overload) :
    Prop where
  suits : r.Suits types best.args
  first : ∃ before after, overloads = before ++ best :: after ∧
    (∀ o ∈ before, r.Suits types o.args → r.expense types best.args < r.expense types o.args) ∧
    ∀ o ∈ after, r.Suits types o.args → r.expense types best.args ≤ r.expense types o.args

section

variable {r : Conversions}

theorem isSome_operandRoute?_iff (hr : r.Built) (haffordable : r.Affordable) {type param : TypeId} :
    (r.operandRoute? type param).isSome = true ↔ type = .unknown ∨ ∃ path, r.Chain type param path := by
  unfold operandRoute?
  split
  · rename_i hunknown
    simp [hunknown]
  · rename_i hknown
    rw [isSome_route?_iff hr haffordable]
    simp [hknown]

theorem cost_operandRoute?_nonneg {type param : TypeId} {route : Route}
    (h : r.operandRoute? type param = some route) : 0 ≤ route.cost := by
  unfold operandRoute? at h
  split at h
  · cases h
    exact le_rfl
  · unfold route? at h
    split at h
    · cases h
      exact le_rfl
    · simpa using (Option.mem_filter_iff.mp h).2

theorem expense_nonneg : ∀ types params : List TypeId, 0 ≤ r.expense types params
  | [], _ => le_rfl
  | _ :: _, [] => le_rfl
  | type :: types, param :: params => by
    have hrest := expense_nonneg types params
    have hfirst : 0 ≤ ((r.operandRoute? type param).map Route.cost).getD 0 := by
      cases hroute : r.operandRoute? type param with
      | none => exact le_rfl
      | some route => exact cost_operandRoute?_nonneg hroute
    have hsum : r.expense (type :: types) (param :: params) =
        ((r.operandRoute? type param).map Route.cost).getD 0 + r.expense types params := by
      simp [expense]
    omega

theorem expense_self {types : List TypeId} (hknown : .unknown ∉ types) : r.expense types types = 0 := by
  induction types with
  | nil => rfl
  | cons type types ih =>
    rw [List.mem_cons, not_or] at hknown
    have hrest := ih hknown.2
    simp only [expense, List.zipWith_cons_cons, List.sum_cons] at hrest ⊢
    rw [hrest, operandRoute?, if_neg fun h => hknown.1 h.symm, route?, if_pos rfl]
    rfl

theorem suits_self {types : List TypeId} : r.Suits types types :=
  List.forall₂_same.mpr fun type _ => .inr ⟨[], .nil type, Nat.zero_le _⟩

theorem eq_of_expense_eq_zero (hr : r.Built) (haffordable : r.Affordable) {types params : List TypeId}
    (hsuits : r.Suits types params) (hknown : .unknown ∉ types) (hzero : r.expense types params = 0) :
    params = types := by
  induction hsuits with
  | nil => rfl
  | @cons type param types params hfirst _ ih =>
    rw [List.mem_cons, not_or] at hknown
    obtain ⟨route, hroute⟩ := Option.isSome_iff_exists.mp ((isSome_operandRoute?_iff hr haffordable).mpr hfirst)
    have hcost := cost_operandRoute?_nonneg hroute
    have hrest := r.expense_nonneg types params
    simp only [expense, List.zipWith_cons_cons, List.sum_cons, hroute, Option.map_some,
      Option.getD_some] at hzero hrest
    rw [operandRoute?, if_neg fun h => hknown.1 h.symm] at hroute
    obtain ⟨hchain, htotal, -⟩ := cheapest_of_route? hr haffordable hroute
    have hnone : route.path = [] := by
      by_contra hne
      have hpos := totalCost_pos hr.cost_pos hchain.leads hne
      omega
    have hsame := hchain.leads
    rw [hnone] at hsame
    rw [ih hknown.2 (by rw [expense]; omega), leads_nil_iff.mp hsame]

end

end Conversions

namespace Row

section

variable {r : Conversions}

theorem reach?_cons (type param : TypeId) (types params : List TypeId) :
    reach? r (type :: types) (param :: params) =
      match r.operandRoute? type param, reach? r types params with
      | some route, some (paths, costs, wilds) =>
        some (route.path :: paths, Decimal.wrap64 (route.cost + costs),
          (if type = .unknown then 1 else 0) + wilds)
      | _, _ => none := by
  rw [reach?, Conversions.operandRoute?]
  by_cases hunknown : type = .unknown
  · simp only [if_pos hunknown]
    cases reach? r types params <;> rfl
  · simp only [if_neg hunknown]
    cases r.route? type param <;> cases reach? r types params <;> rfl

/-- The parameters are reached if each operand has a route to its own. -/
theorem isSome_reach?_iff : ∀ {types params : List TypeId}, types.length = params.length →
    ((reach? r types params).isSome = true ↔
      List.Forall₂ (fun type param => (r.operandRoute? type param).isSome = true) types params)
  | [], [], _ => by simp [reach?]
  | type :: types, param :: params, hlength => by
    rw [reach?_cons, List.forall₂_cons, ← isSome_reach?_iff (Nat.succ.inj hlength)]
    cases r.operandRoute? type param <;> cases reach? r types params <;> simp

/-- What is found where the parameters are reached: the routes of the operands, the sum of their costs, reduced
to 64 bits, and the number of operands that take none. -/
theorem reach?_eq_some : ∀ {types params : List TypeId} {paths : List (List Conversion)} {cost : Int}
    {wildcards : Nat}, types.length = params.length → reach? r types params = some (paths, cost, wildcards) →
    paths = List.zipWith (fun type param => ((r.operandRoute? type param).map Route.path).getD []) types params ∧
      cost = Decimal.wrap64 (r.expense types params) ∧ wildcards = types.count .unknown
  | [], [], _, _, _, _, h => by
    cases h
    exact ⟨rfl, rfl, rfl⟩
  | type :: types, param :: params, paths, cost, wildcards, hlength, h => by
    rw [reach?_cons] at h
    split at h
    · rename_i route rest costs wilds hroute hrest
      cases h
      obtain ⟨rfl, rfl, rfl⟩ := reach?_eq_some (Nat.succ.inj hlength) hrest
      refine ⟨?_, ?_, ?_⟩
      · rw [List.zipWith_cons_cons, hroute]
        rfl
      · simp only [Conversions.expense, List.zipWith_cons_cons, List.sum_cons, hroute, Option.map_some,
          Option.getD_some, Decimal.wrap64]
        exact Int.add_bmod_bmod
      · rw [List.count_cons, Nat.add_comm]
        simp
    · cases h

theorem suits_iff_isSome_reach? (hr : r.Built) (haffordable : r.Affordable) {types params : List TypeId}
    (hlength : types.length = params.length) :
    r.Suits types params ↔ (reach? r types params).isSome = true := by
  simp only [isSome_reach?_iff hlength, Conversions.isSome_operandRoute?_iff hr haffordable]
  rfl

end

/-! ## The choice of an overload -/

section

variable {σ : Type} (services : Services σ) (op : OperatorId) (types : List TypeId)

/-- An overload as a candidate, if its parameters are reached. -/
def candidate? (o : Overload) : Option Candidate :=
  (reach? services.conversions types o.args).map fun x => ⟨o, x.1, x.2.1, x.2.2⟩

/-- Takes a candidate that is better than the best one so far. -/
def better (best : Option Candidate) (c : Candidate) : Option Candidate :=
  if c.beats best then some c else best

theorem pickOverload_eq_foldl :
    pickOverload services op types =
      ((services.operators.ofArity op types.length).filterMap (candidate? services types)).foldl better none := by
  rw [List.foldl_filterMap, pickOverload]
  refine List.foldl_ext _ _ _ fun best o _ => ?_
  unfold candidate?
  cases reach? services.conversions types o.args <;> rfl

theorem foldl_better_cases : ∀ (l : List Candidate) (best : Option Candidate),
    l.foldl better best = best ∧ (best = none → l = []) ∨ ∃ c ∈ l, l.foldl better best = some c
  | [], best => .inl ⟨rfl, fun _ => rfl⟩
  | c :: l, best => by
    rw [List.foldl_cons]
    rcases foldl_better_cases l (better best c) with ⟨hsame, -⟩ | ⟨x, hx, heq⟩
    · rw [hsame, better]
      split
      · exact .inr ⟨c, List.mem_cons_self, rfl⟩
      · rename_i hbeaten
        refine .inl ⟨rfl, fun hnone => ?_⟩
        rw [hnone] at hbeaten
        exact absurd rfl hbeaten
    · exact .inr ⟨x, List.mem_cons_of_mem _ hx, heq⟩

variable {services op types}

theorem length_of_mem_ofArity {t : Operators} {arity : Nat} {o : Overload} (h : o ∈ t.ofArity op arity) :
    o.args.length = arity := by
  have hboth := (List.mem_filter.mp h).2
  simp only [Bool.and_eq_true, decide_eq_true_eq] at hboth
  exact hboth.2

theorem candidate?_eq_some {o : Overload} (ho : o ∈ services.operators.ofArity op types.length) {c : Candidate}
    (h : candidate? services types o = some c) :
    c.overload = o ∧ c.cost = Decimal.wrap64 (services.conversions.expense types o.args) ∧
      c.wildcards = types.count .unknown ∧ c.paths = List.zipWith
        (fun type param => ((services.conversions.operandRoute? type param).map Route.path).getD []) types
        o.args := by
  obtain ⟨⟨paths, cost, wildcards⟩, hreach, rfl⟩ := Option.map_eq_some_iff.mp h
  obtain ⟨hpaths, hcost, hwildcards⟩ := reach?_eq_some (length_of_mem_ofArity ho).symm hreach
  exact ⟨rfl, hcost, hwildcards, hpaths⟩

theorem isSome_candidate?_iff (hr : services.conversions.Built) (haffordable : services.conversions.Affordable)
    {o : Overload} (ho : o ∈ services.operators.ofArity op types.length) :
    (candidate? services types o).isSome = true ↔ services.conversions.Suits types o.args := by
  rw [candidate?, Option.isSome_map, suits_iff_isSome_reach? hr haffordable (length_of_mem_ofArity ho).symm]

/-- No overload is picked if none suits. -/
theorem pickOverload_eq_none_iff (hr : services.conversions.Built)
    (haffordable : services.conversions.Affordable) :
    pickOverload services op types = none ↔
      ∀ o ∈ services.operators.ofArity op types.length, ¬ services.conversions.Suits types o.args := by
  have hempty : pickOverload services op types = none ↔
      (services.operators.ofArity op types.length).filterMap (candidate? services types) = [] := by
    rw [pickOverload_eq_foldl]
    constructor
    · intro h
      rcases foldl_better_cases _ none with ⟨-, hnil⟩ | ⟨c, -, hsome⟩
      · exact hnil rfl
      · rw [h] at hsome
        cases hsome
    · intro h
      rw [h]
      rfl
  rw [hempty, List.filterMap_eq_nil_iff]
  refine forall₂_congr fun o ho => ?_
  rw [← isSome_candidate?_iff hr haffordable ho, Bool.not_eq_true, Option.isSome_eq_false_iff,
    Option.isNone_iff_eq_none]

/-- The overload that is picked is one that suits, with the routes of the operands. -/
theorem mem_of_pickOverload {best : Candidate} (h : pickOverload services op types = some best) :
    best.overload ∈ services.operators.ofArity op types.length ∧
      candidate? services types best.overload = some best := by
  rw [pickOverload_eq_foldl] at h
  rcases foldl_better_cases ((services.operators.ofArity op types.length).filterMap
    (candidate? services types)) none with ⟨hnone, -⟩ | ⟨c, hc, hsome⟩
  · rw [h] at hnone
    cases hnone
  · obtain rfl := Option.some.inj (h.symm.trans hsome)
    obtain ⟨o, ho, hcandidate⟩ := List.mem_filterMap.mp hc
    obtain rfl := (candidate?_eq_some ho hcandidate).1
    exact ⟨ho, hcandidate⟩

/-- The expenses of the overloads that suit fit 64 bits. -/
def ExpensesFit (services : Services σ) (op : OperatorId) (types : List TypeId) : Prop :=
  ∀ o ∈ services.operators.ofArity op types.length, services.conversions.Suits types o.args →
    Decimal.wrap64 (services.conversions.expense types o.args) = services.conversions.expense types o.args

/-- Then a candidate costs what it takes to lead the operands to its parameters. -/
theorem cost_candidate? (hr : services.conversions.Built) (haffordable : services.conversions.Affordable)
    (hfits : ExpensesFit services op types) {o : Overload} (ho : o ∈ services.operators.ofArity op types.length)
    {c : Candidate} (h : candidate? services types o = some c) :
    c.cost = services.conversions.expense types o.args := by
  have hsuits := (isSome_candidate?_iff hr haffordable ho).mp (Option.isSome_iff_exists.mpr ⟨c, h⟩)
  rw [(candidate?_eq_some ho h).2.1, hfits o ho hsuits]

theorem pickOverload_eq_argmin (hr : services.conversions.Built)
    (haffordable : services.conversions.Affordable) (hfits : ExpensesFit services op types) :
    pickOverload services op types =
      ((services.operators.ofArity op types.length).filterMap (candidate? services types)).argmin
        Candidate.cost := by
  rw [pickOverload_eq_foldl]
  refine foldl_eq_argmin (fun _ _ => rfl) fun b hb a ha => ?_
  obtain ⟨o, ho, hb⟩ := List.mem_filterMap.mp hb
  obtain ⟨o', ho', ha⟩ := List.mem_filterMap.mp ha
  -- All candidates leave the same operands as they are, so that only costs count.
  have hwildcards : ¬ a.wildcards < b.wildcards := by
    rw [(candidate?_eq_some ho hb).2.2.1, (candidate?_eq_some ho' ha).2.2.1]
    exact Nat.lt_irrefl _
  have hnonneg : ¬ b.cost < 0 := by
    rw [cost_candidate? hr haffordable hfits ho hb, not_lt]
    exact Conversions.expense_nonneg types o.args
  simp only [better, Candidate.beats, hwildcards, hnonneg, decide_false, Bool.and_false, Bool.or_false,
    Bool.false_or, decide_eq_true_eq]

/-- As long as sums of costs fit 64 bits, the overload that is picked is the first of the cheapest. -/
theorem cheapest_of_pickOverload (hr : services.conversions.Built)
    (haffordable : services.conversions.Affordable) (hfits : ExpensesFit services op types)
    {best : Candidate} (h : pickOverload services op types = some best) :
    services.conversions.IsCheapest types (services.operators.ofArity op types.length) best.overload := by
  obtain ⟨before, after, hsplit, hbefore, hafter⟩ :=
    split_of_argmin ((pickOverload_eq_argmin hr haffordable hfits).symm.trans h)
  obtain ⟨dearer, rest, hall, rfl, hrest⟩ := List.filterMap_eq_append_iff.mp hsplit
  obtain ⟨unsuited, o, later, rfl, hunsuited, ho, rfl⟩ := List.filterMap_eq_cons_iff.mp hrest
  have hmem : ∀ {x : Overload}, x ∈ dearer ∨ x ∈ unsuited ∨ x = o ∨ x ∈ later →
      x ∈ services.operators.ofArity op types.length := by
    intro x hx
    rw [hall]
    simpa using hx
  have hbestMem := hmem (.inr (.inr (.inl rfl)))
  obtain rfl := (candidate?_eq_some hbestMem ho).1
  have hbest := cost_candidate? hr haffordable hfits hbestMem ho
  have hsuited : ∀ {x : Overload}, x ∈ services.operators.ofArity op types.length →
      services.conversions.Suits types x.args → ∃ c, candidate? services types x = some c ∧
        c.cost = services.conversions.expense types x.args := by
    intro x hx hsuits
    obtain ⟨c, hc⟩ := Option.isSome_iff_exists.mp ((isSome_candidate?_iff hr haffordable hx).mpr hsuits)
    exact ⟨c, hc, cost_candidate? hr haffordable hfits hx hc⟩
  have hsuits := (isSome_candidate?_iff hr haffordable hbestMem).mp (Option.isSome_iff_exists.mpr ⟨_, ho⟩)
  refine ⟨hsuits, dearer ++ unsuited, later, by simp [hall], fun x hx hx' => ?_, fun x hx hx' => ?_⟩
  · rcases List.mem_append.mp hx with hx | hx
    · obtain ⟨c, hc, heq⟩ := hsuited (hmem (.inl hx)) hx'
      rw [← hbest, ← heq]
      exact hbefore c (List.mem_filterMap.mpr ⟨x, hx, hc⟩)
    · obtain ⟨c, hc, -⟩ := hsuited (hmem (.inr (.inl hx))) hx'
      rw [hunsuited x hx] at hc
      cases hc
  · obtain ⟨c, hc, heq⟩ := hsuited (hmem (.inr (.inr (.inr hx)))) hx'
    rw [← hbest, ← heq]
    exact hafter c (List.mem_filterMap.mpr ⟨x, hx, hc⟩)

/-- An overload for exactly these types costs nothing, and nothing else does. -/
theorem exact_of_cheapest (hr : services.conversions.Built) (haffordable : services.conversions.Affordable)
    {o best : Overload}
    (h : services.conversions.IsCheapest types (services.operators.ofArity op types.length) best)
    (hknown : .unknown ∉ types) (hexact : services.operators.resolve? op types = some o) : best = o := by
  obtain ⟨hsuits, before, after, hsplit, hbefore, hafter⟩ := h
  have hfind : (before ++ best :: after).find? (fun x => x.args = types) = some o := by
    rw [← hsplit, Operators.ofArity, List.find?_filter, ← hexact, Operators.resolve?]
    refine congrArg (fun p => List.find? p _) (funext fun x => ?_)
    by_cases hargs : x.args = types <;> simp [hargs]
  have hzero : ∀ x : Overload, x.args = types → services.conversions.Suits types x.args ∧
      services.conversions.expense types x.args = 0 := by
    intro x hx
    rw [hx]
    exact ⟨Conversions.suits_self, Conversions.expense_self hknown⟩
  have hnonneg : 0 ≤ services.conversions.expense types best.args := Conversions.expense_nonneg types best.args
  have hnone : before.find? (fun x => x.args = types) = none := by
    rw [List.find?_eq_none]
    intro x hx hargs
    obtain ⟨hx', hcost⟩ := hzero x (of_decide_eq_true hargs)
    have hlt := hbefore x hx hx'
    omega
  rw [List.find?_append, hnone, Option.none_or] at hfind
  obtain ⟨ho, hcost⟩ := hzero o (by simpa using List.find?_some hfind)
  have hbest : best.args = types := by
    refine Conversions.eq_of_expense_eq_zero hr haffordable hsuits hknown ?_
    rcases List.mem_cons.mp (List.mem_of_find?_eq_some hfind) with rfl | hmem
    · exact hcost
    · have hle := hafter o hmem ho
      omega
  rw [List.find?_cons_of_pos (by simpa using hbest)] at hfind
  exact Option.some.inj hfind

end

end Row

end TileMind
