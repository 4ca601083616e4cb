import Mathlib
import TileMind.Registry.Conversions

/-!
# TileMind.Proofs.Registry.Cheapest

The search for a route, against all chains of conversions. The search goes on only through types it has not
visited and gives up a chain that costs as much as the best one so far; the specification knows neither.

* `Conversions.Leads`: a chain of edges from one type to another.
* `Conversions.leads_route?`: a route is one.
* `Conversions.Chain`: a chain of at most three edges, whatever types it passes.
* `walk_eq_foldl`: the search keeps the better of the best route so far and each chain through new types, in
  the order of the search. What it gives up would not be kept.
* `Chain.shorten`: a chain that comes back to a type can be shortened, and is cheaper then. So nothing that
  the search leaves out is cheapest.
* `route?_cheapest`: a route is found if there is a chain, and it is the first of the cheapest.
-/

namespace TileMind
namespace Conversions

/-! ## Chains of conversions

What the search for a route finds is a chain of registered conversions.
-/

/-- A chain of registered conversions from one type to another. -/
inductive Leads (r : Conversions) : TypeId → TypeId → List Conversion → Prop where
  | nil (type : TypeId) : Leads r type type []
  | cons {e : Conversion} {goal : TypeId} {path : List Conversion} (mem : e ∈ r.edges)
      (rest : Leads r e.target goal path) : Leads r e.source goal (e :: path)

section

variable {r : Conversions} {source middle goal goal' : TypeId} {path path' : List Conversion}

theorem Leads.append (h : r.Leads source middle path) (h' : r.Leads middle goal path') :
    r.Leads source goal (path ++ path') := by
  induction h with
  | nil type => exact h'
  | cons mem _ ih => exact .cons mem (ih h')

theorem leads_nil_iff : r.Leads source goal [] ↔ source = goal := by
  constructor
  · rintro ⟨⟩
    rfl
  · rintro rfl
    exact .nil source

theorem Leads.split (h : r.Leads source goal (path ++ path')) :
    ∃ middle, r.Leads source middle path ∧ r.Leads middle goal path' := by
  induction path generalizing source with
  | nil => exact ⟨source, .nil source, h⟩
  | cons e path ih =>
    cases h with
    | cons mem rest =>
      obtain ⟨middle, hfirst, hrest⟩ := ih rest
      exact ⟨middle, .cons mem hfirst, hrest⟩

theorem Leads.goal_eq (h : r.Leads source goal path) (h' : r.Leads middle goal' path)
    (hpath : path ≠ []) : goal = goal' := by
  induction h generalizing middle with
  | nil type => exact absurd rfl hpath
  | @cons e goal path mem rest ih =>
    cases h' with
    | cons _ rest' =>
      by_cases hrest : path = []
      · subst hrest
        rw [← leads_nil_iff.mp rest, ← leads_nil_iff.mp rest']
      · exact ih rest' hrest

/-- The search keeps to chains from `source`: the one it extends and the best one so far. -/
theorem leads_walk (r : Conversions) (source goal : TypeId) : ∀ (depth : Nat) (here : TypeId) (cost : Int)
    (path : List Conversion) (visited : List TypeId) (best : Option Route),
    r.Leads source here path.reverse → (∀ route ∈ best, r.Leads source goal route.path) →
    ∀ route ∈ r.walk goal depth here cost path visited best, r.Leads source goal route.path := by
  intro depth
  induction depth with
  | zero =>
    intro here cost path visited best hpath hbest route hroute
    unfold walk at hroute
    split at hroute
    · exact hbest route hroute
    · split at hroute
      · rename_i hhere
        cases hroute
        exact hhere ▸ hpath
      · exact hbest route hroute
  | succ depth ih =>
    intro here cost path visited best hpath hbest route hroute
    unfold walk at hroute
    split at hroute
    · exact hbest route hroute
    · split at hroute
      · rename_i hhere
        cases hroute
        exact hhere ▸ hpath
      · -- Each outgoing edge is followed with the best route of the edges before it.
        have hedges : ∀ e ∈ r.outgoing here, e ∈ r.edges ∧ e.source = here := by
          intro e he
          obtain ⟨hmem, hsource⟩ := List.mem_filter.mp he
          exact ⟨hmem, by simpa using hsource⟩
        refine List.foldlRecOn (r.outgoing here) _ (motive := fun best : Option Route =>
          ∀ route ∈ best, r.Leads source goal route.path) hbest ?_ route hroute
        intro best hbest e he found hfound
        split at hfound
        · exact hbest found hfound
        · refine ih e.target _ (e :: path) _ best ?_ hbest found hfound
          obtain ⟨hmem, rfl⟩ := hedges e he
          rw [List.reverse_cons]
          exact hpath.append (.cons hmem (.nil _))

/-- A route is a chain of registered conversions. -/
theorem leads_route? {route : Route} (h : r.route? source goal = some route) :
    r.Leads source goal route.path := by
  unfold route? at h
  split at h
  · rename_i heq
    cases h
    exact heq ▸ .nil source
  · exact leads_walk r source goal maxDepth source 0 [] [source] none (.nil source) (by simp) route
      (Option.mem_filter_iff.mp h).1

end

end Conversions
/-! ## The first of the cheapest -/

section

variable {α : Type} {cost : α → Int} {keep : Option α → α → Option α} {l : List α} {a : α}

/-- Keeping the first element and any that is cheaper than the one kept gives the first of the cheapest. -/
theorem foldl_eq_argmin (hfirst : ∀ a ∈ l, keep none a = some a)
    (hnext : ∀ b ∈ l, ∀ a ∈ l, keep (some b) a = if cost a < cost b then some a else some b) :
    l.foldl keep none = l.argmin cost := by
  induction l using List.reverseRecOn with
  | nil => rfl
  | append_singleton l a ih =>
    have hsub : ∀ x ∈ l, x ∈ l ++ [a] := fun x hx => List.mem_append_left _ hx
    have hlast : a ∈ l ++ [a] := List.mem_append_right _ (List.mem_singleton_self a)
    rw [List.foldl_append, List.argmin_concat, ih (fun x hx => hfirst x (hsub x hx))
      (fun b hb x hx => hnext b (hsub b hb) x (hsub x hx))]
    cases hbest : l.argmin cost with
    | none => exact hfirst a hlast
    | some b => exact hnext b (hsub b (List.argmin_mem hbest)) a hlast

/-- What comes before the first of the cheapest is dearer, and what comes after it is not cheaper. -/
theorem split_of_argmin (h : l.argmin cost = some a) :
    ∃ before after, l = before ++ a :: after ∧ (∀ x ∈ before, cost a < cost x) ∧
      ∀ x ∈ after, cost a ≤ cost x := by
  classical
  obtain ⟨hmem, hleast, hfirst⟩ := List.argmin_eq_some_iff.mp h
  obtain ⟨before, after, rfl, hnew⟩ := List.eq_append_cons_of_mem hmem
  refine ⟨before, after, rfl, fun x hx => ?_, fun x hx => hleast x (by simp [hx])⟩
  by_contra hle
  have hindex := hfirst x (by simp [hx]) (not_lt.mp hle)
  rw [List.idxOf_append_of_notMem hnew, List.idxOf_cons_self, List.idxOf_append_of_mem hx] at hindex
  have hlt := List.idxOf_lt_length_of_mem hx
  omega

end

namespace Conversions

/-! ## Registries and chains -/

inductive Built : Conversions → Prop where
  | empty : Built {}
  | register {r r' : Conversions} {e : Conversion} : Built r → r.register e = .ok r' → Built r'
  | freeze {r : Conversions} : Built r → Built r.freeze

theorem edges_register {r r' : Conversions} {e : Conversion} (h : r.register e = .ok r') :
    r'.edges = r.edges ++ [e] ∧ 0 < e.cost ∧ e ∉ r.edges := by
  unfold register at h
  split at h
  · cases h
  · split at h
    · cases h
    · rename_i hcost
      split at h
      · cases h
      · split at h
        · cases h
        · rename_i hnew
          cases h
          refine ⟨rfl, not_le.mp hcost, fun hmem => hnew ?_⟩
          exact List.any_eq_true.mpr ⟨e, hmem, by simp⟩

theorem Built.registerAll {r r' : Conversions} {es : List Conversion} (hr : r.Built)
    (h : es.foldlM Conversions.register r = .ok r') : r'.Built := by
  induction es generalizing r with
  | nil =>
    cases h
    exact hr
  | cons e es ih =>
    rw [List.foldlM_cons] at h
    cases hregister : r.register e with
    | error x =>
      rw [hregister] at h
      cases h
    | ok r'' =>
      rw [hregister] at h
      exact ih (.register hr hregister) h

theorem Built.cost_pos {r : Conversions} (h : r.Built) : ∀ e ∈ r.edges, 0 < e.cost := by
  induction h with
  | empty => simp
  | register _ hregister ih =>
    obtain ⟨hedges, hcost, -⟩ := edges_register hregister
    rw [hedges]
    intro x hx
    rcases List.mem_append.mp hx with hx | hx
    · exact ih x hx
    · rwa [List.mem_singleton.mp hx]
  | freeze _ ih => exact ih

theorem Built.nodup {r : Conversions} (h : r.Built) : r.edges.Nodup := by
  induction h with
  | empty => exact List.nodup_nil
  | register _ hregister ih =>
    obtain ⟨hedges, -, hnew⟩ := edges_register hregister
    rw [hedges, List.nodup_append]
    refine ⟨ih, by simp, fun x hx y hy heq => hnew ?_⟩
    rwa [← List.mem_singleton.mp hy, ← heq]
  | freeze _ ih => exact ih

def totalCost (path : List Conversion) : Int := (path.map Conversion.cost).sum

@[simp] theorem totalCost_nil : totalCost [] = 0 := rfl

@[simp] theorem totalCost_cons (e : Conversion) (path : List Conversion) :
    totalCost (e :: path) = e.cost + totalCost path := by
  simp [totalCost]

@[simp] theorem totalCost_append (path path' : List Conversion) :
    totalCost (path ++ path') = totalCost path + totalCost path' := by
  simp [totalCost]

/-- A chain that is short enough for an implicit conversion. -/
structure Chain (r : Conversions) (source goal : TypeId) (path : List Conversion) : Prop where
  leads : r.Leads source goal path
  short : path.length ≤ maxDepth

/-- No chain is so dear that the sum of its costs needs more than 64 bits. -/
def Affordable (r : Conversions) : Prop :=
  ∀ {source goal : TypeId} {path : List Conversion}, r.Chain source goal path →
    Decimal.wrap64 (totalCost path) = totalCost path

/-- The order of a depth-first search: where two chains part, the first one takes the edge that was
registered earlier. -/
def Precedes (r : Conversions) (path path' : List Conversion) : Prop :=
  ∃ common e e' rest rest', path = common ++ e :: rest ∧ path' = common ++ e' :: rest' ∧
    r.edges.idxOf e < r.edges.idxOf e'

section

variable {r : Conversions} {source here goal : TypeId} {path : List Conversion}

theorem Leads.mem_edges (h : r.Leads source goal path) : ∀ e ∈ path, e ∈ r.edges := by
  induction h with
  | nil type => simp
  | cons mem _ ih => simpa [mem] using ih

theorem totalCost_nonneg (hpos : ∀ e ∈ r.edges, 0 < e.cost) (h : r.Leads source goal path) :
    0 ≤ totalCost path := by
  induction h with
  | nil type => exact le_rfl
  | @cons e goal path mem _ ih =>
    rw [totalCost_cons]
    have hedge := hpos e mem
    omega

theorem totalCost_pos (hpos : ∀ e ∈ r.edges, 0 < e.cost) (h : r.Leads source goal path) (hne : path ≠ []) :
    0 < totalCost path := by
  cases h with
  | nil type => exact absurd rfl hne
  | @cons e goal path mem rest =>
    rw [totalCost_cons]
    have hedge := hpos e mem
    have hrest := totalCost_nonneg hpos rest
    omega

/-- A chain with edges arrives at the goal by one of them. -/
theorem Leads.goal_mem (h : r.Leads source goal path) (hne : path ≠ []) :
    goal ∈ path.map Conversion.target := by
  induction h with
  | nil type => exact absurd rfl hne
  | @cons e goal rest mem hrest ih =>
    by_cases hlast : rest = []
    · subst hlast
      simp [leads_nil_iff.mp hrest]
    · exact List.mem_cons_of_mem _ (ih hlast)

/-- A chain that comes back to a type leads to its goal without the way round, and is cheaper then. -/
theorem Leads.shorten (hpos : ∀ e ∈ r.edges, 0 < e.cost) (h : r.Leads source goal path)
    (hback : ¬ (source :: path.map Conversion.target).Nodup) :
    ∃ path', r.Leads source goal path' ∧ path'.length < path.length ∧ totalCost path' < totalCost path := by
  induction h with
  | nil type => simp at hback
  | @cons e goal rest mem hrest ih =>
    by_cases hhere : e.source ∈ (e :: rest).map Conversion.target
    · -- Everything up to the return to the source is left out.
      obtain ⟨x, hx, htarget⟩ := List.mem_map.mp hhere
      obtain ⟨round, path', hsplit⟩ := List.append_of_mem hx
      have hall : r.Leads e.source goal (round ++ [x] ++ path') := by
        rw [List.append_assoc, List.singleton_append, ← hsplit]
        exact .cons mem hrest
      obtain ⟨middle, hround, hpath'⟩ := hall.split
      have hmiddle : middle = e.source := by
        have hx : r.Leads x.source x.target [x] := .cons (hall.mem_edges x (by simp)) (.nil _)
        obtain ⟨before, -, hlast⟩ := hround.split
        exact (hlast.goal_eq hx (List.cons_ne_nil _ _)).trans htarget
      have hcost := totalCost_pos hpos hround (by simp)
      refine ⟨path', hmiddle ▸ hpath', ?_, ?_⟩
      · rw [hsplit, List.length_append, List.length_cons]
        omega
      · rw [hsplit, ← List.singleton_append, ← List.append_assoc, totalCost_append]
        omega
    · have hback' : ¬ (e.target :: rest.map Conversion.target).Nodup := fun hnodup =>
        hback (List.nodup_cons.mpr ⟨hhere, hnodup⟩)
      obtain ⟨path', hleads, hlength, hcost⟩ := ih hback'
      refine ⟨e :: path', .cons mem hleads, ?_, ?_⟩
      · simpa using hlength
      · simpa using hcost

/-! ## What the search tries -/

/-- The chains from `here` to the goal that the search tries, in its order: none comes to a type that was
visited, and none goes on behind the goal. -/
def tried (r : Conversions) (goal : TypeId) : (depth : Nat) → (here : TypeId) → (visited : List TypeId) →
    List (List Conversion)
  | 0, here, _ => if here = goal then [[]] else []
  | depth + 1, here, visited =>
    if here = goal then [[]]
    else
      (r.outgoing here).flatMap fun e =>
        if visited.contains e.target then []
        else (r.tried goal depth e.target (e.target :: visited)).map (e :: ·)

theorem mem_outgoing {e : Conversion} : e ∈ r.outgoing here ↔ e ∈ r.edges ∧ e.source = here := by
  simp [outgoing]

theorem tried_goal (depth : Nat) (visited : List TypeId) : r.tried goal depth goal visited = [[]] := by
  cases depth <;> rw [tried, if_pos rfl]

theorem tried_zero (hne : here ≠ goal) (visited : List TypeId) : r.tried goal 0 here visited = [] := by
  rw [tried, if_neg hne]

theorem tried_succ {depth : Nat} (hne : here ≠ goal) (visited : List TypeId) :
    r.tried goal (depth + 1) here visited = (r.outgoing here).flatMap fun e =>
      if visited.contains e.target then []
      else (r.tried goal depth e.target (e.target :: visited)).map (e :: ·) := by
  rw [tried, if_neg hne]

theorem mem_tried_succ {depth : Nat} {visited : List TypeId} (hne : here ≠ goal) :
    path ∈ r.tried goal (depth + 1) here visited ↔ ∃ e rest, path = e :: rest ∧ e ∈ r.edges ∧
      e.source = here ∧ e.target ∉ visited ∧ rest ∈ r.tried goal depth e.target (e.target :: visited) := by
  rw [tried_succ hne, List.mem_flatMap]
  constructor
  · rintro ⟨e, he, hpath⟩
    obtain ⟨hmem, hsource⟩ := mem_outgoing.mp he
    split at hpath
    · cases hpath
    · rename_i hnew
      obtain ⟨rest, hrest, rfl⟩ := List.mem_map.mp hpath
      exact ⟨e, rest, rfl, hmem, hsource, by simpa using hnew, hrest⟩
  · rintro ⟨e, rest, rfl, hmem, hsource, hnew, hrest⟩
    refine ⟨e, mem_outgoing.mpr ⟨hmem, hsource⟩, ?_⟩
    rw [if_neg (by simpa using hnew)]
    exact List.mem_map.mpr ⟨rest, hrest, rfl⟩

theorem leads_of_mem_tried {depth : Nat} {visited : List TypeId}
    (h : path ∈ r.tried goal depth here visited) : r.Leads here goal path ∧ path.length ≤ depth := by
  induction depth generalizing here visited path with
  | zero =>
    by_cases heq : here = goal
    · subst heq
      rw [tried_goal, List.mem_singleton] at h
      exact ⟨h ▸ .nil here, h ▸ Nat.zero_le _⟩
    · rw [tried_zero heq] at h
      cases h
  | succ depth ih =>
    by_cases heq : here = goal
    · subst heq
      rw [tried_goal, List.mem_singleton] at h
      exact ⟨h ▸ .nil here, h ▸ Nat.zero_le _⟩
    · obtain ⟨e, rest, rfl, hmem, rfl, -, hrest⟩ := (mem_tried_succ heq).mp h
      obtain ⟨hleads, hlength⟩ := ih hrest
      exact ⟨.cons hmem hleads, Nat.succ_le_succ hlength⟩

/-- A chain through different types, none of them visited, is tried. -/
theorem mem_tried {depth : Nat} {visited : List TypeId} (h : r.Leads here goal path)
    (hlength : path.length ≤ depth) (hhere : here ∈ visited) (hnodup : (path.map Conversion.target).Nodup)
    (hnew : ∀ type ∈ path.map Conversion.target, type ∉ visited) :
    path ∈ r.tried goal depth here visited := by
  induction h generalizing depth visited with
  | nil type =>
    rw [tried_goal]
    exact List.mem_singleton_self _
  | @cons e goal rest mem hrest ih =>
    have hne : e.source ≠ goal := by
      rintro rfl
      exact hnew _ (Leads.goal_mem (.cons mem hrest) (List.cons_ne_nil _ _)) hhere
    obtain ⟨depth, rfl⟩ : ∃ k, depth = k + 1 := by
      cases depth with
      | zero => simp at hlength
      | succ k => exact ⟨k, rfl⟩
    rw [List.map_cons, List.nodup_cons] at hnodup
    refine (mem_tried_succ hne).mpr ⟨e, rest, rfl, mem, rfl, hnew _ (by simp), ?_⟩
    refine ih (Nat.le_of_succ_le_succ hlength) List.mem_cons_self hnodup.2 fun type htype hmem => ?_
    rcases List.mem_cons.mp hmem with rfl | hmem
    · exact hnodup.1 htype
    · exact hnew type (List.mem_cons_of_mem _ htype) hmem

/-- The search is depth first. -/
theorem pairwise_tried (hedges : r.edges.Nodup) (depth : Nat) (here : TypeId) (visited : List TypeId) :
    (r.tried goal depth here visited).Pairwise r.Precedes := by
  have hstart : ∀ {e : Conversion} {visited : List TypeId} {depth : Nat} {path : List Conversion},
      path ∈ (if visited.contains e.target then []
        else (r.tried goal depth e.target (e.target :: visited)).map (e :: ·)) → ∃ rest, path = e :: rest := by
    intro e visited depth path hpath
    split at hpath
    · cases hpath
    · obtain ⟨rest, -, rfl⟩ := List.mem_map.mp hpath
      exact ⟨rest, rfl⟩
  induction depth generalizing here visited with
  | zero =>
    by_cases heq : here = goal
    · subst heq
      rw [tried_goal]
      exact List.pairwise_singleton _ _
    · rw [tried_zero heq]
      exact .nil
  | succ depth ih =>
    by_cases heq : here = goal
    · subst heq
      rw [tried_goal]
      exact List.pairwise_singleton _ _
    · rw [tried_succ heq, List.pairwise_flatMap]
      constructor
      · intro e _
        split
        · exact .nil
        · -- Chains that begin with the same edge part later.
          refine List.pairwise_map.mpr ((ih e.target _).imp fun hlater => ?_)
          obtain ⟨common, x, x', rest, rest', rfl, rfl, hlt⟩ := hlater
          exact ⟨e :: common, x, x', rest, rest', rfl, rfl, hlt⟩
      · have horder : (r.outgoing here).Pairwise fun e e' => r.edges.idxOf e < r.edges.idxOf e' := by
          refine List.Pairwise.filter _ (List.pairwise_iff_getElem.mpr fun i j hi hj hlt => ?_)
          rwa [hedges.idxOf_getElem i, hedges.idxOf_getElem j]
        refine horder.imp fun {e e'} hlt path hpath path' hpath' => ?_
        obtain ⟨rest, rfl⟩ := hstart hpath
        obtain ⟨rest', rfl⟩ := hstart hpath'
        exact ⟨[], e, e', rest, rest', rfl, rfl, hlt⟩

/-! ## What the search keeps -/

/-- A chain as a route. -/
def routeOf (path : List Conversion) : Route := ⟨path, totalCost path⟩

/-- Takes a route, unless the best one so far costs no more. -/
def keep (best : Option Route) (route : Route) : Option Route :=
  if isBeaten route.cost best then best else some route

theorem isBeaten_mono {cost cost' : Int} {best : Option Route} (h : isBeaten cost best = true)
    (hle : cost ≤ cost') : isBeaten cost' best = true := by
  cases best with
  | none => cases h
  | some b =>
    simp only [isBeaten, Bool.and_eq_true, decide_eq_true_eq] at h ⊢
    omega

theorem foldl_keep_of_isBeaten {best : Option Route} {routes : List Route}
    (h : ∀ route ∈ routes, isBeaten route.cost best = true) : routes.foldl keep best = best := by
  induction routes with
  | nil => rfl
  | cons route routes ih =>
    rw [List.foldl_cons, keep, if_pos (h route List.mem_cons_self)]
    exact ih fun x hx => h x (List.mem_cons_of_mem _ hx)

/-- The search keeps the better of the best route so far and each chain that it tries. A chain that it gives
up costs too much already, with whatever follows. -/
theorem walk_eq_foldl (hpos : ∀ e ∈ r.edges, 0 < e.cost) (haffordable : r.Affordable) (depth : Nat) :
    ∀ {here : TypeId} {path : List Conversion} (visited : List TypeId) (best : Option Route),
    r.Leads source here path.reverse → path.length + depth ≤ maxDepth →
    r.walk goal depth here (totalCost path.reverse) path visited best =
      ((r.tried goal depth here visited).map fun rest => routeOf (path.reverse ++ rest)).foldl keep best := by
  have hbeaten : ∀ {depth : Nat} {here : TypeId} {path visited : List _} {best : Option Route},
      isBeaten (totalCost path) best = true →
      ((r.tried goal depth here visited).map fun rest => routeOf (path ++ rest)).foldl keep best = best := by
    intro depth here path visited best hbest
    refine foldl_keep_of_isBeaten fun route hroute => isBeaten_mono hbest ?_
    obtain ⟨rest, hrest, rfl⟩ := List.mem_map.mp hroute
    have hcost := totalCost_nonneg hpos (leads_of_mem_tried hrest).1
    simp only [routeOf, totalCost_append]
    omega
  have hgoal : ∀ {depth : Nat} {path : List Conversion} {visited : List TypeId} {best : Option Route},
      ¬ isBeaten (totalCost path) best = true →
      ((r.tried goal depth goal visited).map fun rest => routeOf (path ++ rest)).foldl keep best =
        some ⟨path, totalCost path⟩ := by
    intro depth path visited best hbest
    rw [tried_goal, List.map_singleton, List.append_nil, List.foldl_cons, List.foldl_nil, keep, routeOf,
      if_neg hbest]
  induction depth with
  | zero =>
    intro here path visited best _ _
    rw [walk]
    split
    · rename_i hbest
      rw [hbeaten hbest]
    · rename_i hbest
      split
      · rename_i heq
        rw [heq, hgoal hbest]
      · rename_i hne
        rw [tried_zero hne]
        rfl
  | succ depth ih =>
    intro here path visited best hpath hlength
    rw [walk]
    split
    · rename_i hbest
      rw [hbeaten hbest]
    · rename_i hbest
      split
      · rename_i heq
        rw [heq, hgoal hbest]
      · rename_i hne
        rw [tried_succ hne, List.map_flatMap, List.foldl_flatMap]
        refine List.foldl_ext _ _ _ fun best e he => ?_
        obtain ⟨hmem, rfl⟩ := mem_outgoing.mp he
        split
        · rfl
        · have hnext : r.Leads source e.target (e :: path).reverse := by
            rw [List.reverse_cons]
            exact hpath.append (.cons hmem (.nil _))
          have hshort : (e :: path).length + depth ≤ maxDepth := by
            rw [List.length_cons]
            omega
          have hcost : Decimal.wrap64 (totalCost path.reverse + e.cost) = totalCost (e :: path).reverse := by
            have hsum : totalCost path.reverse + e.cost = totalCost (e :: path).reverse := by simp
            have hchain : (e :: path).reverse.length ≤ maxDepth := by
              rw [List.length_reverse]
              omega
            rw [hsum]
            exact haffordable ⟨hnext, hchain⟩
          rw [hcost, ih (e.target :: visited) best hnext hshort, List.map_map]
          simp [Function.comp_def]

/-- The search finds the first of the cheapest chains that it tries. -/
theorem route?_eq_argmin (hpos : ∀ e ∈ r.edges, 0 < e.cost) (haffordable : r.Affordable)
    (hne : source ≠ goal) :
    r.route? source goal = ((r.tried goal maxDepth source [source]).map routeOf).argmin Route.cost := by
  have hnonneg : ∀ route ∈ (r.tried goal maxDepth source [source]).map routeOf, 0 ≤ route.cost := by
    intro route hroute
    obtain ⟨path, hpath, rfl⟩ := List.mem_map.mp hroute
    exact totalCost_nonneg hpos (leads_of_mem_tried hpath).1
  have hkeep : ((r.tried goal maxDepth source [source]).map routeOf).foldl keep none =
      ((r.tried goal maxDepth source [source]).map routeOf).argmin Route.cost := by
    refine foldl_eq_argmin (fun _ _ => rfl) fun best hbest route _ => ?_
    have hcost := hnonneg best hbest
    by_cases hlt : route.cost < best.cost
    · rw [if_pos hlt, keep, if_neg]
      simp only [isBeaten, Bool.and_eq_true, decide_eq_true_eq]
      omega
    · rw [if_neg hlt, keep, if_pos]
      simp only [isBeaten, Bool.and_eq_true, decide_eq_true_eq]
      omega
  have hwalk : r.walk goal maxDepth source 0 [] [source] none =
      ((r.tried goal maxDepth source [source]).map routeOf).foldl keep none :=
    walk_eq_foldl hpos haffordable maxDepth [source] none (.nil source) (Nat.zero_add _).le
  rw [route?, if_neg hne, hwalk, hkeep]
  cases hbest : ((r.tried goal maxDepth source [source]).map routeOf).argmin Route.cost with
  | none => rfl
  | some route => exact Option.filter_some_pos (by simpa using hnonneg route (List.argmin_mem hbest))

theorem Chain.mem_tried_of_nodup (h : r.Chain source goal path)
    (hnodup : (source :: path.map Conversion.target).Nodup) : path ∈ r.tried goal maxDepth source [source] := by
  rw [List.nodup_cons] at hnodup
  refine mem_tried h.leads h.short (List.mem_singleton_self _) hnodup.2 fun type htype hmem => ?_
  exact hnodup.1 (List.mem_singleton.mp hmem ▸ htype)

/-- A chain is tried, or there is a cheaper one that is. -/
theorem Chain.mem_tried_or_dearer (hpos : ∀ e ∈ r.edges, 0 < e.cost) (h : r.Chain source goal path) :
    path ∈ r.tried goal maxDepth source [source] ∨
      ∃ path' ∈ r.tried goal maxDepth source [source], totalCost path' < totalCost path := by
  induction hn : path.length using Nat.strong_induction_on generalizing path with
  | _ n ih =>
    by_cases hnodup : (source :: path.map Conversion.target).Nodup
    · exact .inl (h.mem_tried_of_nodup hnodup)
    · obtain ⟨path', hleads, hlength, hcost⟩ := h.leads.shorten hpos hnodup
      rcases ih path'.length (hn ▸ hlength) ⟨hleads, hlength.le.trans h.short⟩ rfl with hmem | ⟨x, hmem, hlt⟩
      · exact .inr ⟨path', hmem, hcost⟩
      · exact .inr ⟨x, hmem, hlt.trans hcost⟩

theorem cheapest_of_route? (hr : r.Built) (haffordable : r.Affordable) {route : Route}
    (h : r.route? source goal = some route) :
    r.Chain source goal route.path ∧ route.cost = totalCost route.path ∧
      ∀ path, r.Chain source goal path → path ≠ route.path →
        route.cost < totalCost path ∨ route.cost = totalCost path ∧ r.Precedes route.path path := by
  by_cases hsame : source = goal
  · subst hsame
    rw [route?, if_pos rfl] at h
    cases h
    exact ⟨⟨.nil source, Nat.zero_le _⟩, rfl, fun path hpath hne =>
      .inl (totalCost_pos hr.cost_pos hpath.leads hne)⟩
  · rw [route?_eq_argmin hr.cost_pos haffordable hsame] at h
    obtain ⟨before, after, hsplit, hbefore, hafter⟩ := split_of_argmin h
    obtain ⟨dearer, rest, htried, rfl, hrest⟩ := List.map_eq_append_iff.mp hsplit
    obtain ⟨path, later, rfl, rfl, rfl⟩ := List.map_eq_cons_iff.mp hrest
    have hpath : path ∈ r.tried goal maxDepth source [source] := by simp [htried]
    have hleast : ∀ x ∈ r.tried goal maxDepth source [source], x ≠ path →
        totalCost path < totalCost x ∨ totalCost path = totalCost x ∧ r.Precedes path x := by
      intro x hx hne
      have horder : (r.tried goal maxDepth source [source]).Pairwise r.Precedes :=
        pairwise_tried hr.nodup maxDepth source [source]
      rw [htried] at hx horder
      rcases List.mem_append.mp hx with hx | hx
      · exact .inl (hbefore _ (List.mem_map_of_mem hx))
      · have hx := (List.mem_cons.mp hx).resolve_left hne
        refine (hafter _ (List.mem_map_of_mem hx)).lt_or_eq.imp_right fun heq => ⟨heq, ?_⟩
        exact (List.pairwise_cons.mp (List.pairwise_append.mp horder).2.1).1 x hx
    obtain ⟨hleads, hshort⟩ := leads_of_mem_tried hpath
    refine ⟨⟨hleads, hshort⟩, rfl, fun x hx hne => ?_⟩
    rcases hx.mem_tried_or_dearer hr.cost_pos with hx | ⟨y, hy, hlt⟩
    · exact hleast x hx hne
    · refine .inl (lt_of_le_of_lt ?_ hlt)
      by_cases heq : y = path
      · rw [heq]
        exact le_rfl
      · rcases hleast y hy heq with hlt | ⟨heq, -⟩
        · exact hlt.le
        · exact heq.le

theorem isSome_route?_iff (hr : r.Built) (haffordable : r.Affordable) :
    (r.route? source goal).isSome = true ↔ ∃ path, r.Chain source goal path := by
  constructor
  · intro h
    obtain ⟨route, hroute⟩ := Option.isSome_iff_exists.mp h
    exact ⟨_, (cheapest_of_route? hr haffordable hroute).1⟩
  · rintro ⟨path, hpath⟩
    by_cases hsame : source = goal
    · rw [route?, if_pos hsame]
      rfl
    · rw [route?_eq_argmin hr.cost_pos haffordable hsame, Option.isSome_iff_ne_none, ne_eq,
        List.argmin_eq_none, List.map_eq_nil_iff]
      intro hnone
      rcases hpath.mem_tried_or_dearer hr.cost_pos with hmem | ⟨_, hmem, -⟩
      · rw [hnone] at hmem
        cases hmem
      · rw [hnone] at hmem
        cases hmem

/-- The search for a route against all chains of at most three registered conversions: a route is found if
and only if there is one; it is a chain with the sum of its costs; every other chain is dearer, or it costs as
much and comes later in depth-first order. From a type to itself nothing has to be done. -/
theorem route?_cheapest (hr : r.Built) (haffordable : r.Affordable) (source goal : TypeId) :
    ((r.route? source goal).isSome = true ↔ ∃ path, r.Chain source goal path) ∧
      (∀ route, r.route? source goal = some route →
        r.Chain source goal route.path ∧ route.cost = totalCost route.path ∧
          ∀ path, r.Chain source goal path → path ≠ route.path →
            route.cost < totalCost path ∨ route.cost = totalCost path ∧ r.Precedes route.path path) ∧
      (source = goal → r.route? source goal = some ⟨[], 0⟩) :=
  ⟨isSome_route?_iff hr haffordable, fun _ h => cheapest_of_route? hr haffordable h,
    fun hsame => by rw [route?, if_pos hsame]⟩

/-- Where every edge costs at most a third of what 64 bits hold, every chain fits. -/
theorem affordable_of_cost_le (hpos : ∀ e ∈ r.edges, 0 < e.cost)
    (hmost : ∀ e ∈ r.edges, e.cost ≤ 3074457345618258602) : r.Affordable := by
  intro source goal path hpath
  have hle : ∀ path : List Conversion, (∀ e ∈ path, e ∈ r.edges) →
      totalCost path ≤ path.length * 3074457345618258602 := by
    intro path
    induction path with
    | nil => simp
    | cons e path ih =>
      intro hmem
      have hfirst := hmost e (hmem e List.mem_cons_self)
      have hrest := ih fun x hx => hmem x (List.mem_cons_of_mem _ hx)
      rw [totalCost_cons, List.length_cons]
      omega
  have hnonneg := totalCost_nonneg hpos hpath.leads
  have hsum := hle path hpath.leads.mem_edges
  have hshort : path.length ≤ 3 := hpath.short
  exact Int.bmod_eq_of_le (by omega) (by omega)

end

/-- Two ways of the same cost from `a` to `d`, and a direct one that costs more. -/
def detour : Conversions :=
  { edges := [⟨"a", "d", 10, 1⟩, ⟨"a", "b", 1, 2⟩, ⟨"a", "c", 2, 3⟩, ⟨"b", "c", 1, 4⟩, ⟨"c", "d", 1, 5⟩,
      ⟨"d", "a", 1, 6⟩] }

theorem built_detour : detour.Built :=
  Built.empty.registerAll (show detour.edges.foldlM Conversions.register {} = .ok detour from rfl)

/-- Of the two cheapest ways, the one whose first edge was registered earlier is taken. -/
theorem route?_cheapest_detour :
    detour.Built ∧ detour.Affordable ∧ ∃ route, detour.route? "a" "d" = some route ∧
      route.path.map Conversion.fn = [2, 4, 5] ∧ route.cost = 3 ∧
      ∀ path, detour.Chain "a" "d" path → path ≠ route.path →
        route.cost < totalCost path ∨ route.cost = totalCost path ∧ detour.Precedes route.path path := by
  have haffordable : detour.Affordable := affordable_of_cost_le built_detour.cost_pos (by decide)
  obtain ⟨-, hroute, -⟩ := route?_cheapest built_detour haffordable "a" "d"
  exact ⟨built_detour, haffordable, _, rfl, rfl, rfl, (hroute _ rfl).2.2⟩

end Conversions

end TileMind
