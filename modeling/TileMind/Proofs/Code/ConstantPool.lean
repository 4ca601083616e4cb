import TileMind.Code.ConstantPool
import TileMind.Proofs.Decimal.General

/-!
# TileMind.Proofs.Code.ConstantPool

The pool gives back what was added to it. Keys tell the constants of rows apart (`key_injective`;
for numbers that is `Decimal.general_injective`), so the slot handed out for a constant holds that
constant (`values_add`), also when the slot was there before, and later additions leave it alone
(`values_prefix_add`).
-/

namespace TileMind

/-- The constants that rows are made of. -/
inductive Scalar.Plain : Scalar → Prop where
  | nil : Plain .nil
  | void : Plain .void
  | bool (b : Bool) : Plain (.bool b)
  | number (x : Float) : Plain (.number x)
  | string (s : String) : Plain (.string s)

theorem Scalar.plain_int (n : Int) : (Scalar.int n).Plain := .number _

namespace ConstantPool

/-- A pool that additions of plain constants have built. -/
inductive Built : ConstantPool → Prop where
  | empty : Built {}
  | add {p : ConstantPool} {s : Scalar} : Built p → s.Plain → Built (p.add (.scalar s)).2

theorem key_number (x : Float) : key (.number x) = "n|" ++ Decimal.general x := rfl
theorem key_string (s : String) : key (.string s) = "s|" ++ s := rfl
theorem key_true : key (.bool true) = "b|true" := by decide
theorem key_false : key (.bool false) = "b|false" := by decide

/-- How the keys of a kind begin. -/
def mark : ScalarKind → List Char
  | .number => ['n', '|']
  | .string => ['s', '|']
  | .boolean => ['b', '|']
  | .enum => ['e', '|']
  | .nil => ['n', 'i']
  | .void => ['v', 'o']
  | .unknown => ['u', 'n']

theorem mark_injective {a b : ScalarKind} (h : mark a = mark b) : a = b := by
  cases a <;> cases b <;> first | rfl | cases h

theorem take_key (s : Scalar) : (key s).toList.take 2 = mark s.kind := by
  unfold key
  cases s.kind with
  | number | string | boolean | enum => simp [mark]
  | nil | void | unknown => simp [mark, ScalarKind.kind, Kind.name]

theorem key_injective {s t : Scalar} (hs : s.Plain) (ht : t.Plain) (h : key s = key t) : s = t := by
  have hkind : s.kind = t.kind := by
    apply mark_injective
    rw [← take_key s, ← take_key t, h]
  cases hs with
  | nil => cases ht <;> first | rfl | cases hkind
  | void => cases ht <;> first | rfl | cases hkind
  | bool a =>
    cases ht with
    | bool b =>
      revert h
      cases a <;> cases b <;> simp [key_true, key_false]
    | _ => cases hkind
  | number x =>
    cases ht with
    | number y =>
      rw [key_number, key_number] at h
      rw [Decimal.general_injective (String.append_right_inj _ |>.mp h)]
    | _ => cases hkind
  | string a =>
    cases ht with
    | string b =>
      rw [key_string, key_string] at h
      rw [String.append_right_inj _ |>.mp h]
    | _ => cases hkind

theorem isPrimitive_of_plain {s : Scalar} (hs : s.Plain) : s.isPrimitive = true := by
  cases hs <;> rfl

/-! ## What an addition does -/

theorem values_prefix_add (p : ConstantPool) (d : Datum) :
    p.values.toList <+: (p.add d).2.values.toList := by
  unfold add push
  split
  · split
    · split
      · exact List.prefix_rfl
      · simp
    · simp
  · simp

/-- Every key of the index is that of the plain constant in its slot. -/
def Indexed (p : ConstantPool) : Prop :=
  ∀ k slot, p.index.lookup k = some slot →
    ∃ s : Scalar, s.Plain ∧ key s = k ∧ p.values[slot]? = some (.scalar s)

theorem Indexed.add {p : ConstantPool} (hp : p.Indexed) {s : Scalar} (hs : s.Plain) :
    (p.add (.scalar s)).2.Indexed := by
  unfold ConstantPool.add
  simp only [isPrimitive_of_plain hs, if_true]
  split
  · exact hp
  · intro k slot h
    simp only [List.lookup_append] at h
    cases hk : p.index.lookup k with
    | some old =>
      rw [hk] at h
      simp only [Option.some_or, Option.some.injEq] at h
      subst h
      obtain ⟨t, ht, htk, hv⟩ := hp k old hk
      refine ⟨t, ht, htk, ?_⟩
      obtain ⟨hlt, -⟩ := Array.getElem?_eq_some_iff.mp hv
      rw [Array.getElem?_push_lt hlt, ← hv, Array.getElem?_eq_getElem hlt]
    | none =>
      rw [hk] at h
      by_cases hkey : k = key s
      · subst hkey
        simp only [List.lookup_cons_self, Option.none_or, Option.some.injEq] at h
        subst h
        exact ⟨s, hs, rfl, Array.getElem?_push_size⟩
      · simp [List.lookup_cons, beq_eq_false_iff_ne.mpr hkey] at h

theorem Built.indexed {p : ConstantPool} (h : p.Built) : p.Indexed := by
  induction h with
  | empty =>
    intro k slot h
    cases h
  | add _ hs ih => exact ih.add hs

theorem values_add {p : ConstantPool} (hp : p.Built) {s : Scalar} (hs : s.Plain) :
    (p.add (.scalar s)).2.values[(p.add (.scalar s)).1]? = some (.scalar s) := by
  unfold ConstantPool.add
  simp only [isPrimitive_of_plain hs, if_true]
  split
  · rename_i slot hslot
    obtain ⟨t, ht, hkey, hv⟩ := hp.indexed _ _ hslot
    rw [key_injective ht hs hkey] at hv
    exact hv
  · exact Array.getElem?_push_size

end ConstantPool

end TileMind
