import TileMind.Proofs.Registry.Cheapest
import TileMind.Proofs.Row.Locality

/-!
# TileMind.Proofs.Row.Overloads

What an operator node gets from the overload that is picked for it, and what its operands get.

* `reaches_pickOverload`: the operands of known type are led to the parameters.
* `get?_convertOperands`: what is recorded for an operand.
* `get?_resolve`: both, for a node.
-/

namespace TileMind
namespace Row

section

variable {σ : Type}

/-- Where `reach?` has paths, they lead operands of known type to their parameters. There is nothing to do
for an operand of unknown type or of the type of the parameter. -/
theorem leads_reach? {r : Conversions} : ∀ {types params : List TypeId} {paths : List (List Conversion)}
    {cost : Int} {wildcards : Nat}, reach? r types params = some (paths, cost, wildcards) →
    ∀ {i : Nat} {type param : TypeId}, types[i]? = some type → params[i]? = some param →
      ∃ path, paths[i]? = some path ∧ (path = [] ↔ type = .unknown ∨ type = param) ∧
        (type ≠ .unknown → r.Leads type param path)
  | [], _, _, _, _, _, _, _, _, htype, _ => by simp at htype
  | _ :: _, [], _, _, _, _, _, _, _, _, hparam => by simp at hparam
  | operand :: types, first :: params, paths, cost, wildcards, h, i, type, param, htype, hparam => by
    rw [reach?] at h
    split at h
    · rename_i path _ _ rest _ _ hfirst hrest
      cases h
      cases i with
      | zero =>
        obtain rfl : operand = type := by simpa using htype
        obtain rfl : first = param := by simpa using hparam
        refine ⟨path, rfl, ?_⟩
        split at hfirst
        · rename_i hunknown
          cases hfirst
          simp [hunknown]
        · rename_i hknown
          obtain ⟨route, hroute, heq⟩ := Option.map_eq_some_iff.mp hfirst
          cases heq
          have hleads := Conversions.leads_route? hroute
          refine ⟨⟨fun hnil => .inr ?_, fun hsame => ?_⟩, fun _ => hleads⟩
          · rw [hnil] at hleads
            exact Conversions.leads_nil_iff.mp hleads
          · obtain rfl := hsame.resolve_left hknown
            rw [Conversions.route?, if_pos rfl] at hroute
            cases hroute
            rfl
      | succ i => exact leads_reach? hrest (by simpa using htype) (by simpa using hparam)
    · cases h

/-- The overload that is picked has as many parameters as there are operands, and they are reached. -/
theorem reaches_pickOverload {services : Services σ} {op : OperatorId} {types : List TypeId}
    {best : Candidate} (h : pickOverload services op types = some best) :
    best.overload.args.length = types.length ∧
      ∃ cost wildcards, reach? services.conversions types best.overload.args =
        some (best.paths, cost, wildcards) := by
  unfold pickOverload at h
  refine List.foldlRecOn (services.operators.ofArity op types.length) _
    (motive := fun found : Option Candidate => ∀ best, found = some best →
      best.overload.args.length = types.length ∧
        ∃ cost wildcards, reach? services.conversions types best.overload.args =
          some (best.paths, cost, wildcards)) (by simp) ?_ best h
  intro found hfound o ho best hbest
  have harity : o.args.length = types.length := by
    have := (List.mem_filter.mp ho).2
    simp only [Bool.and_eq_true, decide_eq_true_eq] at this
    exact this.2
  split at hbest
  · exact hfound best hbest
  · rename_i paths cost wildcards hreach
    dsimp only at hbest
    split at hbest
    · cases hbest
      exact ⟨harity, cost, wildcards, hreach⟩
    · exact hfound best hbest

/-- An operand with conversions gets them, and with them the type of the parameter; one without keeps
what it has. -/
theorem get?_convertOperands : ∀ {ids : List Nat} {params : List TypeId} {paths : List (List Conversion)}
    (s : Typing), ids.Nodup → ∀ {i id : Nat} {param : TypeId} {path : List Conversion},
    ids[i]? = some id → params[i]? = some param → paths[i]? = some path →
    (convertOperands ids params paths s).table.get? id =
      if path = [] then s.table.get? id
      else some { s.table.get id with expected := param, conversion := path }
  | [], _, _, _, _, _, _, _, _, hid, _, _ => by simp at hid
  | _ :: _, [], _, _, _, _, _, _, _, _, hparam, _ => by simp at hparam
  | _ :: _, _ :: _, [], _, _, _, _, _, _, _, _, hpath => by simp at hpath
  | first :: ids, type :: params, conv :: paths, s, hnodup, i, id, param, path, hid, hparam, hpath => by
    rw [List.nodup_cons] at hnodup
    rw [convertOperands]
    dsimp only
    cases i with
    | zero =>
      obtain rfl : first = id := by simpa using hid
      obtain rfl : type = param := by simpa using hparam
      obtain rfl : conv = path := by simpa using hpath
      -- The operands that follow are other nodes.
      rw [(within_convertOperands ids params paths _).1.outside first hnodup.1]
      by_cases hempty : conv = []
      · simp [hempty]
      · rw [if_neg (by simpa using hempty), if_neg hempty, Typing.modify, TypeTable.get?_modify,
          if_pos rfl]
    | succ i =>
      have hmem : ids[i]? = some id := by simpa using hid
      have hne : id ≠ first := by
        rintro rfl
        exact hnodup.1 (List.mem_of_getElem? hmem)
      rw [get?_convertOperands _ hnodup.2 hmem (by simpa using hparam) (by simpa using hpath)]
      have hsame : (if conv.isEmpty then s else s.modify first fun info =>
          { info with expected := type, conversion := conv }).table.get? id = s.table.get? id := by
        split
        · rfl
        · rw [Typing.modify, TypeTable.get?_modify, if_neg hne]
      rw [hsame, TypeTable.get_of_get? hsame]

/-- An operator node gets the overload that is picked. Operands whose type is known and not that of the
parameter are converted to it; the others keep what is recorded for them. -/
theorem get?_resolve (scope : TypeScope σ) {m : Mark} {op : OperatorId} {operands : List (Nat × TypeId)}
    (s : Typing) {best : Candidate} (hnodup : (m.id :: operands.map Prod.fst).Nodup)
    (hbest : pickOverload scope.services op (operands.map Prod.snd) = some best) :
    (resolve scope m op operands s).1 = best.overload.result ∧
      ((resolve scope m op operands s).2.table.get m.id).overload = some best.overload ∧
      ∀ {i id : Nat} {type : TypeId}, operands[i]? = some (id, type) → ∃ param path,
        best.overload.args[i]? = some param ∧ best.paths[i]? = some path ∧
        (path = [] ↔ type = .unknown ∨ type = param) ∧
        (type ≠ .unknown → scope.services.conversions.Leads type param path) ∧
        (resolve scope m op operands s).2.table.get? id =
          if path = [] then s.table.get? id
          else some { s.table.get id with expected := param, conversion := path } := by
  rw [List.nodup_cons] at hnodup
  obtain ⟨harity, cost, wildcards, hreach⟩ := reaches_pickOverload hbest
  unfold resolve
  dsimp only
  rw [hbest]
  dsimp only
  generalize hu : (s.modify m.id fun info => { info with overload := some best.overload }) = u
  have hw := (within_convertOperands (operands.map Prod.fst) best.overload.args best.paths u).1
  refine ⟨rfl, ?_, fun {i id type} hi => ?_⟩
  · rw [TypeTable.get_of_get? (hw.outside m.id hnodup.1), ← hu, TypeTable.get, Typing.modify,
      TypeTable.get?_modify, if_pos rfl]
    rfl
  · have hid : (operands.map Prod.fst)[i]? = some id := by simp [hi]
    have htype : (operands.map Prod.snd)[i]? = some type := by simp [hi]
    have hlt : i < best.overload.args.length := by
      rw [harity]
      exact (List.getElem?_eq_some_iff.mp htype).1
    have hparam := List.getElem?_eq_getElem hlt
    obtain ⟨path, hpath, hnil, hleads⟩ := leads_reach? hreach htype hparam
    have hne : id ≠ m.id := by
      rintro rfl
      exact hnodup.1 (List.mem_of_getElem? hid)
    have hsame : u.table.get? id = s.table.get? id := by
      rw [← hu, Typing.modify, TypeTable.get?_modify, if_neg hne]
    refine ⟨_, path, hparam, hpath, hnil, hleads, ?_⟩
    rw [get?_convertOperands u hnodup.2 hid hparam hpath, hsame, TypeTable.get_of_get? hsame]

/-- An operator node that is typed without an error has an overload. -/
theorem resolves_resolve (scope : TypeScope σ) {m : Mark} {op : OperatorId} {operands : List (Nat × TypeId)}
    {s : Typing} (hnodup : (m.id :: operands.map Prod.fst).Nodup)
    (hok : (resolve scope m op operands s).2.diags.hasErrors = false) :
    ∃ o, ((resolve scope m op operands s).2.table.get m.id).overload = some o ∧
      ∀ {i id : Nat} {type : TypeId}, operands[i]? = some (id, type) → ∃ param, o.args[i]? = some param ∧
        if type = .unknown ∨ type = param then
          (resolve scope m op operands s).2.table.get? id = s.table.get? id
        else ∃ path, path ≠ [] ∧ scope.services.conversions.Leads type param path ∧
          ((resolve scope m op operands s).2.table.get id).conversion = path := by
  cases hbest : pickOverload scope.services op (operands.map Prod.snd) with
  | none =>
    rw [resolve, hbest] at hok
    simp [Typing.report, Diagnostics.hasErrors, Diagnostic.isError, Diagnostic.ofMark] at hok
  | some best =>
    obtain ⟨-, hoverload, hoperands⟩ := get?_resolve scope s hnodup hbest
    refine ⟨best.overload, hoverload, fun {i id type} hi => ?_⟩
    obtain ⟨param, path, hparam, -, hnil, hleads, hentry⟩ := hoperands hi
    refine ⟨param, hparam, ?_⟩
    split
    · rename_i hsame
      rw [hentry, if_pos (hnil.mpr hsame)]
    · rename_i hother
      have hpath : path ≠ [] := fun hempty => hother (hnil.mp hempty)
      rw [not_or] at hother
      refine ⟨path, hpath, hleads hother.1, ?_⟩
      rw [TypeTable.get, hentry, if_neg hpath]
      rfl

end

end Row
end TileMind
