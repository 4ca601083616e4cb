import Mathlib.Algebra.BigOperators.Group.Finset.Basic
import Mathlib.Algebra.Order.BigOperators.Group.Finset
import Mathlib.Logic.Relation
import Mathlib.Tactic.Linarith
import Mathlib.Tactic.Ring
import TileMind.Code.Assembler
import TileMind.Code.StackDepth

/-!
# TileMind.Proofs.Code.Survey

A survey of code comes to an end, and what it has found out then.

* `Flows`: from one instruction to the next, with the heights of the stack before them.
* `Reaches.le`: without a loop that grows the stack, heights are bounded. A path that comes to a place
  twice is then no higher than it is without the loop in between.
* `Survey.Proper.left_step`: each round leaves less to do, for heights of 64 bits cannot grow for ever.
* `Survey.Explores.step`: as long as no height is cut to 64 bits, what was looked at has its successors
  noted.
* `Survey.Explores.dominates`: when nothing is left to look at, no path is higher than what was found.
* `survey_ends`: the survey of any code comes to an end. Without a growing loop it does so early, and has
  found the highest stack.
* `survey_of_pushingLoop`: with one, it may take its time.
-/

namespace TileMind

/-! ## Paths -/

namespace Instr

/-- The height after an instruction that is reached with height `h`; one that finds too little on the
stack leaves it empty. -/
def after (i : Instr) (h : Int) : Int := if h - i.pops < 0 then 0 else h + i.effect

/-- The places that may follow the instruction at place `k`. -/
def nexts (i : Instr) (k : Int) : List Int :=
  match i.op? with
  | some .ret | some .throw => []
  | some .jump => [k + i.a.toInt]
  | some .try | some .jumpIfFalse | some .jumpIfTrue | some .whenEnd => [k + i.a.toInt, k + 1]
  | _ => [k + 1]

/-- The most that one instruction adds. -/
def mostAdded : Int := 2 ^ 31 + 2

theorem effect_add_pops_nonneg (i : Instr) : 0 ≤ i.effect + i.pops := by
  unfold effect
  split <;> omega

theorem le_pops (i : Instr) : -2 ^ 31 ≤ i.pops := by
  unfold pops
  split
  · decide
  · split
    · omega
    · exact i.b.le_toInt

theorem pops_le (i : Instr) : i.pops < 2 ^ 31 := by
  unfold pops
  have hb := i.b.toInt_lt
  cases i.op? with
  | none =>
    show (0 : Int) < 2 ^ 31
    decide
  | some op => cases op <;> simp only [Op.pops] <;> omega

theorem pushes_le (i : Instr) : i.pushes ≤ 2 := by
  unfold pushes
  cases i.op? with
  | none => decide
  | some op => cases op <;> decide

theorem effect_le (i : Instr) : i.effect ≤ mostAdded := by
  have hpops := i.le_pops
  have hpushes := i.pushes_le
  unfold effect mostAdded
  split <;> omega

theorem after_nonneg (i : Instr) (h : Int) : 0 ≤ i.after h := by
  have := i.effect_add_pops_nonneg
  unfold after
  split <;> omega

theorem after_le (i : Instr) {h : Int} (h0 : 0 ≤ h) : i.after h ≤ h + mostAdded := by
  have := i.effect_le
  have : 0 ≤ mostAdded := by decide
  unfold after
  split <;> omega

/-- Heights that fit 64 bits are not cut. -/
theorem leaves_eq (i : Instr) {h : Int} (h0 : 0 ≤ h) (hneed : h - i.pops < 2 ^ 63)
    (hafter : i.after h < 2 ^ 63) : i.leaves h = i.after h := by
  have heffect := i.effect_add_pops_nonneg
  have hpops := i.pops_le
  rw [leaves, Decimal.wrap64_of_range (by omega) hneed]
  unfold after at hafter ⊢
  split
  · rfl
  · rename_i hfound
    rw [if_neg hfound] at hafter
    exact Decimal.wrap64_of_range (by omega) hafter

theorem leaves_lt (i : Instr) (h : Int) : i.leaves h < 2 ^ 63 := by
  unfold leaves
  split
  · decide
  · exact Decimal.wrap64_lt _

theorem after_mono (i : Instr) {h h' : Int} (hle : h ≤ h') : i.after h ≤ i.after h' := by
  have := i.effect_add_pops_nonneg
  unfold after
  split <;> split <;> omega

end Instr

/-- From one place, with its height, to the next. -/
structure Flows (code : Array Instr) (x y : Nat × Int) : Prop where
  inside : y.1 < code.size
  along : ∃ i, code[x.1]? = some i ∧ (y.1 : Int) ∈ i.nexts x.1 ∧ y.2 = i.after x.2

/-- A place that some path from the start comes to with this height. -/
def Reaches (code : Array Instr) : Nat × Int → Prop := Relation.ReflTransGen (Flows code) (0, 0)

/-- From one place to the next through an instruction that finds enough on the stack. -/
structure Carries (code : Array Instr) (x y : Nat × Int) : Prop where
  inside : y.1 < code.size
  along : ∃ i, code[x.1]? = some i ∧ i.pops ≤ x.2 ∧ (y.1 : Int) ∈ i.nexts x.1 ∧ y.2 = x.2 + i.effect

/-- A loop that some path from the start comes to, that finds enough on the stack and leaves more. -/
def GrowingLoop (code : Array Instr) : Prop :=
  ∃ k h h', Reaches code (k, h) ∧ Relation.TransGen (Carries code) (k, h) (k, h') ∧ h < h'

section

variable {code : Array Instr} {x y z : Nat × Int} {ps : List Nat} {δ : Int}

theorem Flows.exists_instr (h : Flows code x y) : x.1 < code.size := by
  obtain ⟨i, hi, -⟩ := h.along
  exact (Array.getElem?_eq_some_iff.mp hi).1

theorem Carries.flows (h : Carries code x y) : Flows code x y := by
  obtain ⟨i, hi, hpops, hnext, hy⟩ := h.along
  exact ⟨h.inside, i, hi, hnext, by rw [hy, Instr.after, if_neg (by omega)]⟩

/-- An instruction that finds too little on the stack leaves it empty. -/
theorem Flows.carries_or (h : Flows code x y) : Carries code x y ∨ y.2 = 0 := by
  obtain ⟨i, hi, hnext, hy⟩ := h.along
  rw [Instr.after] at hy
  split at hy
  · exact .inr hy
  · exact .inl ⟨h.inside, i, hi, by omega, hnext, hy⟩

/-- With more on the stack there is still enough on it. -/
theorem Carries.shift (h : Carries code x y) (hδ : 0 ≤ δ) :
    Carries code (x.1, x.2 + δ) (y.1, y.2 + δ) := by
  obtain ⟨i, hi, hpops, hnext, hy⟩ := h.along
  exact ⟨h.inside, i, hi, by dsimp only; omega, hnext, by dsimp only; omega⟩

theorem transGen_shift (h : Relation.TransGen (Carries code) x y) (hδ : 0 ≤ δ) :
    Relation.TransGen (Carries code) (x.1, x.2 + δ) (y.1, y.2 + δ) := by
  induction h with
  | single h => exact .single (h.shift hδ)
  | tail _ h ih => exact ih.tail (h.shift hδ)

/-- A loop that grows the stack is gone through again and again. -/
theorem reaches_pumped {k : Nat} {h h' : Int} (hreach : Reaches code (k, h))
    (hloop : Relation.TransGen (Carries code) (k, h) (k, h')) (hlt : h < h') (n : Nat) :
    Reaches code (k, h + n * (h' - h)) := by
  induction n with
  | zero => simpa using hreach
  | succ n ih =>
    have hagain := transGen_shift hloop (show 0 ≤ n * (h' - h) by positivity)
    have hflows := hagain.to_reflTransGen.lift id fun _ _ h => h.flows
    refine Relation.ReflTransGen.trans ih ?_
    rw [show h + ((n + 1 : Nat) : Int) * (h' - h) = h' + n * (h' - h) by push_cast; ring]
    exact hflows

/-! ## Heights are bounded without growing loops -/

/-- The places on the way from `x` to `y`. -/
inductive CodePath (code : Array Instr) : List Nat → Nat × Int → Nat × Int → Prop
  | nil (x : Nat × Int) : CodePath code [x.1] x x
  | cons {x y z : Nat × Int} {ps : List Nat} :
    Carries code x y → CodePath code ps y z → CodePath code (x.1 :: ps) x z

theorem CodePath.snoc (h : CodePath code ps x y) (hy : Carries code y z) :
    CodePath code (ps ++ [z.1]) x z := by
  induction h with
  | nil x => exact .cons hy (.nil z)
  | cons hx _ ih => exact .cons hx (ih hy)

theorem CodePath.shift (h : CodePath code ps x y) (hδ : 0 ≤ δ) :
    CodePath code ps (x.1, x.2 + δ) (y.1, y.2 + δ) := by
  induction h with
  | nil x => exact .nil (x.1, x.2 + δ)
  | cons hx _ ih => exact .cons (hx.shift hδ) ih

/-- The last part of a path, from a place on it. -/
theorem CodePath.split (h : CodePath code ps x z) {k : Nat} (hk : k ∈ ps) :
    ∃ h' qs, Relation.ReflTransGen (Carries code) x (k, h') ∧ CodePath code (k :: qs) (k, h') z ∧
      k :: qs <:+ ps := by
  induction h with
  | nil x =>
    obtain rfl := List.mem_singleton.mp hk
    exact ⟨x.2, [], .refl, .nil x, List.suffix_refl _⟩
  | @cons x y z ps hx hrest ih =>
    rcases List.mem_cons.mp hk with rfl | hk
    · exact ⟨x.2, ps, .refl, .cons hx hrest, List.suffix_refl _⟩
    · obtain ⟨h', qs, hfirst, hlast, hsuffix⟩ := ih hk
      exact ⟨h', qs, .head hx hfirst, hlast, hsuffix.trans (List.suffix_cons _ _)⟩

/-- Without a growing loop, no path is higher at its end than one that comes to no place twice. -/
theorem CodePath.simple (hloop : ¬ GrowingLoop code) (h : CodePath code ps x z) (hx : Reaches code x) :
    ∃ qs h', CodePath code qs x (z.1, h') ∧ z.2 ≤ h' ∧ qs.Nodup := by
  induction h with
  | nil x => exact ⟨[x.1], x.2, .nil x, le_rfl, List.nodup_singleton _⟩
  | @cons x y z ps hxy _ ih =>
    obtain ⟨qs, h', hpath, hle, hnodup⟩ := ih (hx.tail hxy.flows)
    by_cases hmem : x.1 ∈ qs
    · -- The path comes back to where it began, no higher: leave the loop out.
      obtain ⟨h₁, rest, hback, hlast, hsuffix⟩ := hpath.split hmem
      have hdown : h₁ ≤ x.2 := by
        by_contra hup
        exact hloop ⟨x.1, x.2, h₁, hx, .head' hxy hback, by omega⟩
      have hshift := hlast.shift (show 0 ≤ x.2 - h₁ by omega)
      rw [show h₁ + (x.2 - h₁) = x.2 by omega] at hshift
      exact ⟨x.1 :: rest, _, hshift, by dsimp only; omega, hnodup.sublist hsuffix.sublist⟩
    · exact ⟨x.1 :: qs, h', .cons hxy hpath, hle, List.nodup_cons.mpr ⟨hmem, hnodup⟩⟩

theorem CodePath.inside (h : CodePath code ps x y) (hx : x.1 < code.size) : ∀ p ∈ ps, p < code.size := by
  induction h with
  | nil x => simpa using hx
  | cons hxy _ ih => exact List.forall_mem_cons.mpr ⟨hx, ih hxy.inside⟩

theorem CodePath.le (h : CodePath code ps x y) : y.2 + Instr.mostAdded ≤ x.2 + ps.length * Instr.mostAdded := by
  induction h with
  | nil x => simp
  | cons hxy _ ih =>
    obtain ⟨i, -, -, -, hy⟩ := hxy.along
    have := i.effect_le
    rw [List.length_cons]
    push_cast
    linarith

/-- Every place is come to from one with an empty stack, through instructions that all find enough on
it. -/
theorem Reaches.exists_codePath (h : Reaches code x) :
    ∃ k ps, Reaches code (k, 0) ∧ CodePath code ps (k, 0) x := by
  induction h with
  | refl => exact ⟨0, [0], .refl, .nil (0, 0)⟩
  | @tail x y hx hxy ih =>
    obtain ⟨k, ps, hk, hpath⟩ := ih
    rcases hxy.carries_or with hcarries | hempty
    · exact ⟨k, ps ++ [y.1], hk, hpath.snoc hcarries⟩
    · obtain ⟨k', h'⟩ := y
      obtain rfl : h' = 0 := hempty
      exact ⟨k', [k'], Relation.ReflTransGen.tail hx hxy, .nil (k', 0)⟩

theorem Reaches.inside (h : Reaches code x) (hsize : 0 < code.size) : x.1 < code.size := by
  cases h with
  | refl => exact hsize
  | tail _ h => exact h.inside

theorem Reaches.nonneg (h : Reaches code x) : 0 ≤ x.2 := by
  cases h with
  | refl => exact le_rfl
  | tail _ h =>
    obtain ⟨i, -, -, hy⟩ := h.along
    rw [hy]
    exact i.after_nonneg _

/-- Without a growing loop, one instruction after another adds to the stack, each of them once. -/
theorem Reaches.le (hloop : ¬ GrowingLoop code) (hsize : 0 < code.size) (h : Reaches code x) :
    x.2 + Instr.mostAdded ≤ code.size * Instr.mostAdded := by
  obtain ⟨k, ps, hk, hpath⟩ := h.exists_codePath
  obtain ⟨qs, h', hsimple, hle, hnodup⟩ := hpath.simple hloop hk
  have hsub : qs ⊆ List.range code.size := fun p hp =>
    List.mem_range.mpr (hsimple.inside (hk.inside hsize) p hp)
  have hlength : qs.length ≤ code.size := by
    simpa using (hnodup.subperm hsub).length_le
  have hmost : (qs.length : Int) * Instr.mostAdded ≤ code.size * Instr.mostAdded :=
    mul_le_mul_of_nonneg_right (by exact_mod_cast hlength) (by decide)
  have hbound := hsimple.le
  dsimp only at hbound
  omega

end

/-! ## Looking at instructions -/

namespace Survey

variable {code : Array Instr} {s : Survey} {k : Nat} {h : Int}

/-- The height recorded for a place. Where there is none, every height is higher. -/
def heightOf (s : Survey) (k : Nat) : Int := (s.heights.getD k none).getD (-1)

def raise (s : Survey) (k : Nat) (h : Int) : Survey :=
  { s with heights := s.heights.setIfInBounds k (some h), work := (k : Int) :: s.work }

theorem heightOf_raise (hk : k < s.heights.size) (j : Nat) :
    (s.raise k h).heightOf j = if j = k then h else s.heightOf j := by
  simp only [heightOf, raise, Array.getD_eq_getD_getElem?]
  by_cases hj : j = k
  · subst hj
    simp [Array.getElem?_setIfInBounds_self_of_lt hk]
  · rw [Array.getElem?_setIfInBounds_ne (Ne.symm hj), if_neg hj]

theorem visit_eq_raise (hk : k < s.heights.size) (hlow : s.heightOf k < h) :
    s.visit k h = s.raise k h := by
  have hnn : ¬ (k : Int) < 0 := by omega
  simp only [heightOf, Array.getD_eq_getD_getElem?, Array.getElem?_eq_getElem hk,
    Option.getD_some] at hlow
  simp only [visit, hnn, if_false, Int.toNat_natCast, Array.getElem?_eq_getElem hk]
  rw [if_neg]
  · rfl
  · cases hseen : s.heights[k] <;> simp_all

theorem visit_eq_self {pc : Int} (hhigh : ∀ k : Nat, pc = k → k < s.heights.size → h ≤ s.heightOf k) :
    s.visit pc h = s := by
  unfold visit
  split
  · rfl
  · rename_i hnn
    have hpc : pc = (pc.toNat : Int) := by omega
    cases hseen : s.heights[pc.toNat]? with
    | none => rfl
    | some seen =>
      have hlt := (Array.getElem?_eq_some_iff.mp hseen).1
      have hle := hhigh pc.toNat hpc hlt
      simp only [heightOf, Array.getD_eq_getD_getElem?, hseen, Option.getD_some] at hle
      dsimp only
      rw [if_pos]
      cases seen <;> simpa using hle

/-- How much room there is for heights up to `bound`, and how many places there are to look at. -/
def left (bound : Int) (s : Survey) : Nat :=
  ∑ k ∈ Finset.range s.heights.size, (bound - s.heightOf k).toNat + s.work.length

theorem left_raise {bound : Int} (hk : k < s.heights.size) (hlow : s.heightOf k < h)
    (hbound : h ≤ bound) : (s.raise k h).left bound ≤ s.left bound := by
  have hsize : (s.raise k h).heights.size = s.heights.size := by simp [raise]
  have hsum : ∑ j ∈ Finset.range s.heights.size, (bound - (s.raise k h).heightOf j).toNat <
      ∑ j ∈ Finset.range s.heights.size, (bound - s.heightOf j).toNat := by
    refine Finset.sum_lt_sum (fun j _ => ?_) ⟨k, Finset.mem_range.mpr hk, ?_⟩ <;>
      rw [heightOf_raise hk]
    · split
      · rename_i hj
        subst hj
        omega
      · exact le_rfl
    · rw [if_pos rfl]
      omega
  simp only [left, hsize]
  simp only [raise, List.length_cons] at hsum ⊢
  omega

/-- What noting that some places are reached with height `h` does. -/
structure Notes (s t : Survey) (ks : List Int) (h : Int) : Prop where
  size : t.heights.size = s.heights.size
  highest : t.highest = s.highest
  kept : ∀ pc ∈ s.work, pc ∈ t.work
  mono : ∀ j, s.heightOf j ≤ t.heightOf j
  noted : ∀ j : Nat, (j : Int) ∈ ks → j < s.heights.size → h ≤ t.heightOf j
  raised : ∀ j : Nat, t.heightOf j = s.heightOf j ∨
    (j : Int) ∈ ks ∧ (j : Int) ∈ t.work ∧ j < s.heights.size ∧ s.heightOf j < h ∧ t.heightOf j = h
  new : ∀ pc ∈ t.work, pc ∈ s.work ∨
    ∃ j : Nat, pc = j ∧ j < s.heights.size ∧ s.heightOf j < h ∧ t.heightOf j = h
  left : ∀ bound, h ≤ bound → t.left bound ≤ s.left bound

def visitAll (s : Survey) (ks : List Int) (h : Int) : Survey := ks.foldl (fun s k => s.visit k h) s

theorem notes_visit (s : Survey) (pc h : Int) : Notes s (s.visit pc h) [pc] h := by
  by_cases hlow : ∃ k : Nat, pc = k ∧ k < s.heights.size ∧ s.heightOf k < h
  · obtain ⟨k, rfl, hk, hlow⟩ := hlow
    rw [visit_eq_raise hk hlow]
    have hat := heightOf_raise (h := h) hk
    refine ⟨by simp [raise], rfl, fun pc hpc => List.mem_cons_of_mem _ hpc, fun j => ?_, fun j hj _ => ?_,
      fun j => ?_, fun pc hpc => ?_, fun bound hbound => left_raise hk hlow hbound⟩
    · rw [hat]
      split
      · rename_i hj
        rw [hj]
        exact hlow.le
      · exact le_rfl
    · rw [hat, if_pos (by simpa using hj)]
    · rw [hat]
      split
      · rename_i hj
        subst hj
        exact .inr ⟨by simp, by simp [raise], hk, hlow, rfl⟩
      · exact .inl rfl
    · rcases List.mem_cons.mp hpc with rfl | hpc
      · exact .inr ⟨k, rfl, hk, hlow, by rw [hat, if_pos rfl]⟩
      · exact .inl hpc
  · have hhigh (k : Nat) (hpc : pc = k) (hk : k < s.heights.size) : h ≤ s.heightOf k :=
      not_lt.mp fun hless => hlow ⟨k, hpc, hk, hless⟩
    rw [visit_eq_self hhigh]
    exact ⟨rfl, rfl, fun _ h => h, fun _ => le_rfl,
      fun j hj => hhigh j (List.mem_singleton.mp hj).symm, fun _ => .inl rfl, fun _ => .inl,
      fun _ _ => le_rfl⟩

theorem Notes.trans {s t u : Survey} {ks ls : List Int} {h : Int} (hst : Notes s t ks h)
    (htu : Notes t u ls h) : Notes s u (ks ++ ls) h where
  size := htu.size.trans hst.size
  highest := htu.highest.trans hst.highest
  kept pc hpc := htu.kept pc (hst.kept pc hpc)
  mono j := (hst.mono j).trans (htu.mono j)
  noted j hj hlt := by
    rcases List.mem_append.mp hj with hj | hj
    · exact (hst.noted j hj hlt).trans (htu.mono j)
    · exact htu.noted j hj (hst.size ▸ hlt)
  raised j := by
    obtain heq | ⟨hj, hwork, hlt, hlow, heq⟩ := htu.raised j
    · obtain heq' | ⟨hj', hwork', hlt', hlow', heq'⟩ := hst.raised j
      · exact .inl (heq.trans heq')
      · exact .inr ⟨List.mem_append_left _ hj', htu.kept _ hwork', hlt', hlow', heq.trans heq'⟩
    · exact .inr ⟨List.mem_append_right _ hj, hwork, hst.size ▸ hlt, (hst.mono j).trans_lt hlow, heq⟩
  new pc hpc := by
    rcases htu.new pc hpc with hpc | ⟨j, rfl, hlt, hlow, heq⟩
    · rcases hst.new pc hpc with hpc | ⟨j, rfl, hlt, hlow, heq⟩
      · exact .inl hpc
      · obtain heq' | ⟨-, -, -, -, heq'⟩ := htu.raised j
        · exact .inr ⟨j, rfl, hlt, hlow, heq'.trans heq⟩
        · exact .inr ⟨j, rfl, hlt, hlow, heq'⟩
    · exact .inr ⟨j, rfl, hst.size ▸ hlt, (hst.mono j).trans_lt hlow, heq⟩
  left bound hbound := (htu.left bound hbound).trans (hst.left bound hbound)

theorem notes_visitAll (s : Survey) (ks : List Int) (h : Int) : Notes s (s.visitAll ks h) ks h := by
  induction ks generalizing s with
  | nil =>
    exact ⟨rfl, rfl, fun _ h => h, fun _ => le_rfl, by simp, fun _ => .inl rfl, fun _ => .inl,
      fun _ _ => le_rfl⟩
  | cons k ks ih => exact (notes_visit s k h).trans (ih (s.visit k h))

/-- Looking at an instruction notes the places that may follow it. -/
theorem step_eq {i : Instr} {work : List Int} (hw : s.work = (k : Int) :: work)
    (hi : code[k]? = some i) (h0 : 0 ≤ s.heightOf k) (hlt : s.heightOf k < 2 ^ 63) :
    step code s =
      { s with work := work, highest := max s.highest (i.leaves (s.heightOf k)) : Survey }.visitAll
        (i.nexts k) (i.leaves (s.heightOf k)) := by
  have htry : i.op? = some .try → i.leaves (s.heightOf k) = s.heightOf k := by
    intro hop
    have hpops : i.pops = 0 := by simp [Instr.pops, hop, Op.pops]
    have heffect : i.effect = 0 := by simp [Instr.effect, hpops, hop, Instr.pushes, Op.pushes]
    have hkept : i.after (s.heightOf k) = s.heightOf k := by
      rw [Instr.after, hpops, heffect, if_neg (by omega), Int.add_zero]
    rw [i.leaves_eq h0 (by omega) (by omega), hkept]
  have hget : code.getD k default = i := by simp [Array.getD_eq_getD_getElem?, hi]
  simp only [step, hw, Int.toNat_natCast, hget, visitAll, Instr.nexts]
  rw [show (s.heights.getD k none).getD (-1) = s.heightOf k from rfl]
  cases hop : i.op? with
  | none => rfl
  | some op =>
    by_cases hneutral : op = .try
    · subst hneutral
      rw [htry hop]
      rfl
    · cases op <;> first | rfl | exact absurd rfl hneutral

theorem heightOf_start (code : Array Instr) (k : Nat) :
    (start code).heightOf k = if k = 0 ∧ 0 < code.size then 0 else -1 := by
  simp only [heightOf, start, Array.getD_eq_getD_getElem?, Array.getElem?_setIfInBounds,
    Array.getElem?_replicate, Array.size_replicate]
  grind

theorem work_start (hpos : 0 < code.size) : (start code).work = [0] := by
  simp [start, Array.isEmpty, hpos.ne']

/-! ## The end of a survey -/

/-- A survey under way, whose heights fit 64 bits. -/
structure Proper (code : Array Instr) (s : Survey) : Prop where
  size : s.heights.size = code.size
  range : ∀ k, -1 ≤ s.heightOf k ∧ s.heightOf k < 2 ^ 63
  work : ∀ pc ∈ s.work, ∃ k : Nat, pc = k ∧ k < code.size ∧ 0 ≤ s.heightOf k

theorem proper_start (code : Array Instr) : Proper code (start code) := by
  refine ⟨by simp [start], fun k => ?_, fun pc hpc => ?_⟩
  · rw [heightOf_start]
    split <;> omega
  · have hpos : 0 < code.size := by
      by_contra hzero
      simp [start, Array.isEmpty, show code.size = 0 by omega] at hpc
    rw [work_start hpos, List.mem_singleton] at hpc
    exact ⟨0, hpc, hpos, by rw [heightOf_start, if_pos ⟨rfl, hpos⟩]⟩

/-- What one round looks at, and that it notes what follows. -/
theorem Proper.exists_step (hs : Proper code s) (hwork : s.work ≠ []) :
    ∃ (k : Nat) (i : Instr) (work : List Int), s.work = (k : Int) :: work ∧ code[k]? = some i ∧
      0 ≤ s.heightOf k ∧ step code s =
        { s with work := work, highest := max s.highest (i.leaves (s.heightOf k)) : Survey }.visitAll
          (i.nexts k) (i.leaves (s.heightOf k)) := by
  obtain ⟨pc, work, hw⟩ := List.exists_cons_of_ne_nil hwork
  obtain ⟨k, rfl, hk, h0⟩ := hs.work pc (by rw [hw]; exact List.mem_cons_self)
  obtain ⟨i, hi⟩ : ∃ i, code[k]? = some i := ⟨_, Array.getElem?_eq_getElem hk⟩
  exact ⟨k, i, work, hw, hi, h0, step_eq hw hi h0 (hs.range k).2⟩

theorem Proper.step (hs : Proper code s) (hwork : s.work ≠ []) : Proper code (step code s) := by
  obtain ⟨k, i, work, hw, hi, h0, heq⟩ := hs.exists_step hwork
  have hbelow := i.leaves_lt (s.heightOf k)
  rw [heq]
  have hn := notes_visitAll { s with work := work, highest := max s.highest (i.leaves (s.heightOf k)) }
    (i.nexts k) (i.leaves (s.heightOf k))
  generalize visitAll _ _ _ = t at hn ⊢
  refine ⟨hn.size.trans hs.size, fun j => ?_, fun pc hpc => ?_⟩
  · refine ⟨(hs.range j).1.trans (hn.mono j), ?_⟩
    obtain heq | ⟨-, -, -, -, heq⟩ := hn.raised j
    · rw [heq]
      exact (hs.range j).2
    · rw [heq]
      exact hbelow
  · rcases hn.new pc hpc with hpc | ⟨j, rfl, hlt, hlow, heq⟩
    · obtain ⟨j, rfl, hlt, hj⟩ := hs.work pc (by rw [hw]; exact List.mem_cons_of_mem _ hpc)
      exact ⟨j, rfl, hlt, hj.trans (hn.mono j)⟩
    · exact ⟨j, rfl, hs.size ▸ hlt, heq ▸ Int.add_one_le_of_lt ((hs.range j).1.trans_lt hlow)⟩

/-- Each round that raises heights up to a bound leaves less to do. -/
theorem Proper.left_step (hs : Proper code s) (hwork : s.work ≠ []) {bound : Int}
    (hbound : ∀ (k : Nat) i, 0 ≤ s.heightOf k → code[k]? = some i → i.leaves (s.heightOf k) ≤ bound) :
    (Survey.step code s).left bound < s.left bound := by
  obtain ⟨k, i, work, hw, hi, h0, heq⟩ := hs.exists_step hwork
  rw [heq]
  refine ((notes_visitAll _ _ _).left _ (hbound k i h0 hi)).trans_lt ?_
  simp only [left, heightOf, hw, List.length_cons]
  omega

/-- If each round leaves less to do, as long as something keeps holding, there is an end. -/
theorem work_run (P : Survey → Prop) (bound : Int)
    (hstep : ∀ s, P s → s.work ≠ [] → P (step code s) ∧ (step code s).left bound < s.left bound)
    {rounds : Nat} (hs : P s) (hrounds : s.left bound ≤ rounds) : (Survey.run code rounds s).work = [] := by
  induction rounds generalizing s with
  | zero =>
    simp only [left] at hrounds
    exact List.eq_nil_of_length_eq_zero (by simp only [Survey.run]; omega)
  | succ rounds ih =>
    rw [Survey.run]
    split
    · rename_i hwork
      simpa using hwork
    · rename_i hwork
      obtain ⟨hkept, hless⟩ := hstep s hs (by simpa using hwork)
      exact ih hkept (by omega)

theorem left_start_le {bound : Int} (hbound : 0 ≤ bound) :
    ((start code).left bound : Int) ≤ code.size * (bound + 1) := by
  have hsize : (start code).heights.size = code.size := by simp [start]
  rcases Nat.eq_zero_or_pos code.size with hzero | hpos
  · simp [left, hzero, start, Array.isEmpty]
  · -- The first place is one that has been raised already.
    obtain ⟨n, hn⟩ := Nat.exists_eq_add_of_le' hpos
    have hrest (k : Nat) : (bound - (start code).heightOf (k + 1)).toNat = bound.toNat + 1 := by
      rw [heightOf_start, if_neg (by omega)]
      omega
    have hfirst : (bound - (start code).heightOf 0).toNat = bound.toNat := by
      rw [heightOf_start, if_pos ⟨rfl, hpos⟩, sub_zero]
    rw [left, hsize, hn, Finset.sum_range_succ', hfirst, work_start hpos]
    simp only [hrest, Finset.sum_const, Finset.card_range, nsmul_eq_mul, List.length_singleton]
    push_cast
    rw [Int.toNat_of_nonneg hbound]
    linarith

/-- After enough rounds nothing is left to look at. -/
theorem work_run_start (code : Array Instr) : (run code (patience code.size) (start code)).work = [] := by
  refine work_run (Proper code) (2 ^ 63 - 1) (fun s hs hwork => ⟨hs.step hwork, ?_⟩)
    (proper_start code) ?_
  · exact hs.left_step hwork fun k i _ _ => Int.le_sub_one_of_lt (i.leaves_lt _)
  · have hstart : ((start code).left (2 ^ 63 - 1) : Int) ≤ _ := left_start_le (by decide)
    rw [patience]
    omega

/-- When nothing is left to look at, further rounds change nothing. -/
theorem run_of_work {n : Nat} (hend : (run code n s).work = []) {m : Nat} (hle : n ≤ m) :
    run code m s = run code n s := by
  induction n generalizing s m with
  | zero =>
    rw [run] at hend
    cases m <;> simp [run, hend]
  | succ n ih =>
    obtain ⟨m, rfl⟩ := Nat.exists_eq_add_of_le' (Nat.one_le_of_lt hle)
    rw [run] at hend ⊢
    rw [run]
    split
    · rfl
    · rename_i hwork
      rw [if_neg hwork] at hend
      exact ih hend (by omega)

/-! ## What a survey knows -/

/-- No height on a path through the code is cut to 64 bits. -/
def Narrow (code : Array Instr) : Prop :=
  ∀ k h i, Reaches code (k, h) → code[k]? = some i → h - i.pops < 2 ^ 63 ∧ i.after h < 2 ^ 63

/-- A survey under way. Heights are those of paths, and a place that is not left to look at has its
successors noted. -/
structure Explores (code : Array Instr) (s : Survey) : Prop extends Proper code s where
  reached : ∀ k, 0 ≤ s.heightOf k → k < code.size ∧ Reaches code (k, s.heightOf k)
  first : 0 < code.size → 0 ≤ s.heightOf 0
  looked : ∀ k i, 0 ≤ s.heightOf k → (k : Int) ∉ s.work → code[k]? = some i →
    i.after (s.heightOf k) ≤ s.highest ∧
    ∀ j : Nat, (j : Int) ∈ i.nexts k → j < code.size → i.after (s.heightOf k) ≤ s.heightOf j
  floor : 0 ≤ s.highest
  attained : s.highest = 0 ∨ ∃ k h i, Reaches code (k, h) ∧ code[k]? = some i ∧ s.highest = i.after h

theorem explores_start (code : Array Instr) : Explores code (start code) := by
  have hheight := heightOf_start code
  refine ⟨proper_start code, fun k h0 => ?_, fun hpos => ?_, fun k i h0 hnot hi => ?_, le_rfl, .inl rfl⟩
  · rw [hheight] at h0 ⊢
    split at h0
    · rename_i hk
      obtain ⟨rfl, hpos⟩ := hk
      rw [if_pos ⟨rfl, hpos⟩]
      exact ⟨hpos, .refl⟩
    · omega
  · rw [hheight, if_pos ⟨rfl, hpos⟩]
  · rw [hheight] at h0
    split at h0
    · rename_i hk
      obtain ⟨rfl, hpos⟩ := hk
      exact absurd (by simp [work_start hpos]) hnot
    · omega

theorem Explores.leaves_eq (hs : Explores code s) (hnarrow : Narrow code) {i : Instr}
    (h0 : 0 ≤ s.heightOf k) (hi : code[k]? = some i) :
    i.leaves (s.heightOf k) = i.after (s.heightOf k) := by
  obtain ⟨hneed, hafter⟩ := hnarrow k _ i (hs.reached k h0).2 hi
  exact i.leaves_eq h0 hneed hafter

theorem Explores.step (hs : Explores code s) (hnarrow : Narrow code) (hwork : s.work ≠ []) :
    Explores code (step code s) := by
  obtain ⟨k, i, work, hw, hi, h0, heq⟩ := hs.exists_step hwork
  have hproper := hs.toProper.step hwork
  have hreach := (hs.reached k h0).2
  have ha0 := i.after_nonneg (s.heightOf k)
  rw [heq, hs.leaves_eq hnarrow h0 hi] at hproper ⊢
  have hn := notes_visitAll
    { s with work := work, highest := max s.highest (i.after (s.heightOf k)) } (i.nexts k)
    (i.after (s.heightOf k))
  generalize visitAll _ _ _ = t at hn hproper ⊢
  have hhigh : t.highest = max s.highest (i.after (s.heightOf k)) := hn.highest
  refine ⟨hproper, fun j hj => ?_, fun hpos => (hs.first hpos).trans (hn.mono 0),
    fun j i' hj hnot hi' => ?_, ?_, ?_⟩
  · obtain heq | ⟨hnext, -, hlt, -, heq⟩ := hn.raised j
    · rw [heq] at hj ⊢
      exact hs.reached j hj
    · rw [heq]
      exact ⟨hs.size ▸ hlt, hreach.tail ⟨hs.size ▸ hlt, i, hi, hnext, rfl⟩⟩
  · -- A place whose height was raised is left to look at; the others are as before.
    have heq : t.heightOf j = s.heightOf j := (hn.raised j).resolve_right fun h => hnot h.2.1
    rw [heq] at hj
    rw [heq, hhigh]
    by_cases hjk : j = k
    · subst hjk
      obtain rfl : i = i' := by rw [hi, Option.some.injEq] at hi'; exact hi'
      exact ⟨le_max_right _ _, fun j' hj' hlt => hn.noted j' hj' (hs.size ▸ hlt)⟩
    · have hold : (j : Int) ∉ s.work := by
        rw [hw, List.mem_cons, not_or]
        exact ⟨by omega, fun hmem => hnot (hn.kept _ hmem)⟩
      obtain ⟨hle, hnext⟩ := hs.looked j i' hj hold hi'
      exact ⟨le_max_of_le_left hle, fun j' hj' hlt => (hnext j' hj' hlt).trans (hn.mono j')⟩
  · rw [hhigh]
    exact le_max_of_le_left hs.floor
  · rw [hhigh]
    rcases max_choice s.highest (i.after (s.heightOf k)) with heq | heq <;> rw [heq]
    · exact hs.attained
    · exact .inr ⟨k, _, i, hreach, hi, rfl⟩

theorem Explores.run (hs : Explores code s) (hnarrow : Narrow code) (rounds : Nat) :
    Explores code (run code rounds s) := by
  induction rounds generalizing s with
  | zero => exact hs
  | succ rounds ih =>
    rw [Survey.run]
    split
    · exact hs
    · rename_i hwork
      exact ih (hs.step hnarrow (by simpa using hwork))

/-- When nothing is left to look at, no path comes to a place with more than what is recorded. -/
theorem Explores.dominates (hs : Explores code s) (hend : s.work = []) (hsize : 0 < code.size)
    {x : Nat × Int} (hx : Reaches code x) : x.2 ≤ s.heightOf x.1 ∧ 0 ≤ s.heightOf x.1 := by
  induction hx with
  | refl => exact ⟨hs.first hsize, hs.first hsize⟩
  | @tail x y _ hxy ih =>
    obtain ⟨hle, h0⟩ := ih
    obtain ⟨i, hi, hnext, hy⟩ := hxy.along
    have hnoted := (hs.looked x.1 i h0 (by simp [hend]) hi).2 y.1 hnext hxy.inside
    have hmono := i.after_mono hle
    exact ⟨by omega, (i.after_nonneg _).trans hnoted⟩

end Survey

/-! ## The depth that is found -/

section

variable {code : Array Instr}

/-- The heights of the stack after the instructions on some path. -/
def Tops (code : Array Instr) : Set Int :=
  {top | top = 0 ∨ ∃ k h i, Reaches code (k, h) ∧ code[k]? = some i ∧ top = i.after h}

open Survey in
/-- Unless a height is cut, the depth is the highest stack that a path makes. -/
theorem isGreatest_maxStackDepth (hnarrow : Narrow code) : IsGreatest (Tops code) (maxStackDepth code) := by
  have hs := (explores_start code).run hnarrow (patience code.size)
  have hend := work_run_start code
  refine ⟨hs.attained, ?_⟩
  rintro _ (rfl | ⟨k, h, i, hreach, hi, rfl⟩)
  · exact hs.floor
  · have hk := (Array.getElem?_eq_some_iff.mp hi).1
    obtain ⟨hle, h0⟩ := hs.dominates hend (Nat.zero_lt_of_lt hk) hreach
    exact (i.after_mono hle).trans (hs.looked k i h0 (by simp [hend]) hi).1

/-- Without a growing loop heights fit 64 bits, unless the code is very long. -/
theorem narrow_of_not_growing (hloop : ¬ GrowingLoop code) (hsize : code.size * Instr.mostAdded < 2 ^ 63) :
    Survey.Narrow code := by
  intro k h i hreach hi
  have hbound := hreach.le hloop (Nat.zero_lt_of_lt (Array.getElem?_eq_some_iff.mp hi).1)
  have hafter := i.after_le hreach.nonneg
  have hpops := i.le_pops
  simp only [Instr.mostAdded] at *
  omega

/-- Without a growing loop no stack is higher than all instructions together make it. -/
theorem le_of_mem_tops (hloop : ¬ GrowingLoop code) {top : Int} (htop : top ∈ Tops code) :
    top ≤ code.size * Instr.mostAdded := by
  obtain rfl | ⟨k, h, i, hreach, hi, rfl⟩ := htop
  · exact Int.mul_nonneg (Int.natCast_nonneg _) (by decide)
  · have hpos := Nat.zero_lt_of_lt (Array.getElem?_eq_some_iff.mp hi).1
    exact (i.after_le hreach.nonneg).trans (hreach.le hloop hpos)

open Survey in
/-- Without a growing loop a survey comes to an end early. -/
theorem work_run_of_not_growing (hloop : ¬ GrowingLoop code)
    (hsize : code.size * Instr.mostAdded < 2 ^ 63) :
    (run code (code.size * (code.size * (2 ^ 31 + 2) + 1)) (start code)).work = [] := by
  have hnarrow := narrow_of_not_growing hloop hsize
  refine work_run (Explores code) (code.size * Instr.mostAdded)
    (fun s hs hwork => ⟨hs.step hnarrow hwork, ?_⟩) (explores_start code) ?_
  · refine hs.left_step hwork fun k i h0 hi => ?_
    rw [hs.leaves_eq hnarrow h0 hi]
    exact le_of_mem_tops hloop (.inr ⟨k, _, i, (hs.reached k h0).2, hi, rfl⟩)
  · have hstart : ((start code).left (code.size * Instr.mostAdded) : Int) ≤ _ :=
      left_start_le (Int.mul_nonneg (Int.natCast_nonneg _) (by decide))
    rw [Instr.mostAdded] at hstart ⊢
    exact_mod_cast hstart

end

/-- The survey of any code comes to an end, however its jumps go: no instruction is looked at more often than
there are heights. Without a loop that grows the stack it ends early, and the depth is the highest stack
that some path makes, no higher than if each instruction added the most that one can. -/
theorem survey_ends (code : Array Instr) :
    (∃ rounds ≤ 2 ^ 63 * code.size, ∀ more ≥ rounds,
      (Survey.run code more (Survey.start code)).work = [] ∧
      (Survey.run code more (Survey.start code)).highest = maxStackDepth code) ∧
    (code.size * Instr.mostAdded < 2 ^ 63 → ¬ GrowingLoop code →
      (Survey.run code (code.size * (code.size * (2 ^ 31 + 2) + 1)) (Survey.start code)).work = [] ∧
      IsGreatest (Tops code) (maxStackDepth code) ∧
      maxStackDepth code ≤ code.size * Instr.mostAdded) := by
  have hend := Survey.work_run_start code
  refine ⟨⟨Survey.patience code.size, le_rfl, fun more hmore => ?_⟩, fun hsize hloop => ?_⟩
  · rw [Survey.run_of_work hend hmore]
    exact ⟨hend, rfl⟩
  · have hgreatest := isGreatest_maxStackDepth (narrow_of_not_growing hloop hsize)
    exact ⟨work_run_of_not_growing hloop hsize, hgreatest, le_of_mem_tops hloop hgreatest.1⟩

/-- Code in which every place has its level, whichever way one comes to it, has no loop that grows the stack. -/
theorem not_growing_of_levels {code : Array Instr} (level : Nat → Int)
    (hlevel : ∀ k (_ : k < code.size), ∀ pc ∈ code[k].nexts k, level pc.toNat = level k + code[k].effect) :
    ¬ GrowingLoop code := by
  rintro ⟨k, h, h', -, hloop, hlt⟩
  have hkept {x y : Nat × Int} (hxy : Relation.TransGen (Carries code) x y) :
      y.2 - level y.1 = x.2 - level x.1 := by
    have hstep {x y : Nat × Int} (hxy : Carries code x y) : y.2 - level y.1 = x.2 - level x.1 := by
      obtain ⟨i, hi, -, hnext, hy⟩ := hxy.along
      obtain ⟨hk, rfl⟩ := Array.getElem?_eq_some_iff.mp hi
      have hat := hlevel x.1 hk _ hnext
      rw [Int.toNat_natCast] at hat
      omega
    induction hxy with
    | single hxy => exact hstep hxy
    | tail _ hxy ih => exact (hstep hxy).trans ih
  have heq := hkept hloop
  dsimp only at heq
  omega

open Assembler in
/-- A value is put on the stack and taken off again until another one says that it is enough. -/
def turningLoop : Except AssemblerError (Array Instr) := do
  let (again, s) := newLabel {}
  let (enough, s) := s.newLabel
  let s ← s.bind again
  let (_, s) ← s.emit (.of .pushConst)
  let (_, s) ← s.emitJump Op.jumpIfTrue.byte enough .a
  let (_, s) ← s.emitJump Op.jump.byte again .a
  let s ← s.bind enough
  let (_, s) ← s.emit (.of .ret)
  s.finish.1

theorem survey_ends_turning : ∃ code, turningLoop = .ok code ∧
    code.size * Instr.mostAdded < 2 ^ 63 ∧ ¬ GrowingLoop code ∧
    (∃ rounds ≤ 2 ^ 63 * code.size, (Survey.run code rounds (Survey.start code)).work = []) ∧
    IsGreatest (Tops code) (maxStackDepth code) := by
  refine ⟨#[.of .pushConst, .of .jumpIfTrue 2, .of .jump (-2), .of .ret], rfl, by decide, ?_⟩
  have hloop : ¬ GrowingLoop #[.of .pushConst, .of .jumpIfTrue 2, .of .jump (-2), .of .ret] :=
    not_growing_of_levels (fun k => [0, 1, 0, 0].getD k 0) (by decide)
  obtain ⟨⟨rounds, hle, hend⟩, hearly⟩ :=
    survey_ends #[.of .pushConst, .of .jumpIfTrue 2, .of .jump (-2), .of .ret]
  exact ⟨hloop, ⟨rounds, hle, (hend rounds le_rfl).1⟩, (hearly (by decide) hloop).2.1⟩

open Assembler in
/-- A value is put on the stack again and again. -/
def pushingLoop : Except AssemblerError (Array Instr) := do
  let (again, s) := newLabel {}
  let s ← s.bind again
  let (_, s) ← s.emit (.of .pushConst)
  let (_, s) ← s.emitJump Op.jump.byte again .a
  s.finish.1

namespace Survey

theorem run_add (m n : Nat) (s : Survey) : run code (m + n) s = run code n (run code m s) := by
  induction m generalizing s with
  | zero => rw [Nat.zero_add, run]
  | succ m ih =>
    rw [Nat.add_right_comm, run, run]
    split
    · rename_i hwork
      cases n with
      | zero => rfl
      | succ n => rw [run, if_pos hwork]
    · exact ih _

section

variable {n : Int} {x : Option Int}

/-- Code that pushes for ever. -/
def pushing : Array Instr := #[.of .pushConst, .of .jump (-1)]

theorem step_push (h0 : 0 ≤ n) (hn : n < 2 ^ 63) :
    step pushing ⟨#[some n, x], [0], n⟩ =
      visit ⟨#[some n, x], [], max n (Decimal.wrap64 (n + 1))⟩ (1 : Nat) (Decimal.wrap64 (n + 1)) := by
  have hleaves : (Instr.of .pushConst).leaves n = Decimal.wrap64 (n + 1) := by
    have hpops : (Instr.of .pushConst).pops = 0 := by decide
    have heffect : (Instr.of .pushConst).effect = 1 := by decide
    rw [Instr.leaves, hpops, heffect, sub_zero, Decimal.wrap64_of_range (by omega) hn, if_neg (by omega)]
  have hcode : pushing[0]? = some (.of .pushConst) := rfl
  have hstep := step_eq (s := ⟨#[some n, x], [0], n⟩) rfl hcode h0 hn
  rw [← hleaves]
  exact hstep

theorem step_back (h0 : 0 ≤ n) (hn : n + 1 < 2 ^ 63) :
    step pushing ⟨#[some n, some (n + 1)], [1], n + 1⟩ =
      ⟨#[some (n + 1), some (n + 1)], [0], n + 1⟩ := by
  have hleaves : (Instr.of .jump (-1)).leaves (n + 1) = n + 1 := by
    have hpops : (Instr.of .jump (-1)).pops = 0 := by decide
    have heffect : (Instr.of .jump (-1)).effect = 0 := by decide
    rw [Instr.leaves, hpops, heffect, sub_zero, add_zero, Decimal.wrap64_of_range (by omega) hn, if_neg (by omega)]
  have hcode : pushing[1]? = some (.of .jump (-1)) := rfl
  have hstep := step_eq (s := ⟨#[some n, some (n + 1)], [1], n + 1⟩) rfl hcode
    (show 0 ≤ n + 1 by omega) hn
  have hnexts : (Instr.of .jump (-1)).nexts 1 = [((0 : Nat) : Int)] := by decide
  refine hstep.trans ?_
  show visitAll ⟨_, [], max (n + 1) ((Instr.of .jump (-1)).leaves (n + 1))⟩ ((Instr.of .jump (-1)).nexts 1)
    ((Instr.of .jump (-1)).leaves (n + 1)) = _
  rw [hleaves, hnexts, max_self]
  exact visit_eq_raise (s := ⟨#[some n, some (n + 1)], [], n + 1⟩) (k := 0) Nat.zero_lt_two
    (show n < n + 1 by omega)

/-- The survey when the loop has been gone through. -/
theorem run_pushing (h0 : 0 ≤ n) (hn : n + 1 < 2 ^ 63) (hx : x.getD (-1) ≤ n) :
    run pushing 2 ⟨#[some n, x], [0], n⟩ = ⟨#[some (n + 1), some (n + 1)], [0], n + 1⟩ := by
  have hpush : step pushing ⟨#[some n, x], [0], n⟩ = ⟨#[some n, some (n + 1)], [1], n + 1⟩ := by
    rw [step_push h0 (by omega), Decimal.wrap64_of_range (by omega) hn, max_eq_right (by omega),
      visit_eq_raise (by show 1 < 2; omega) (by show x.getD (-1) < n + 1; omega)]
    rfl
  simp only [run, List.isEmpty_cons, Bool.false_eq_true, if_false, hpush, step_back h0 hn]

end

/-- The survey when the loop has been gone through `n` times more than once. -/
theorem run_pushing_start {n : Nat} (hn : n + 1 < 2 ^ 63) :
    run pushing (2 * (n + 1)) (start pushing) = ⟨#[some (n + 1 : Int), some (n + 1 : Int)], [0], n + 1⟩ := by
  induction n with
  | zero => exact run_pushing (n := 0) (x := none) le_rfl (by decide) (by decide)
  | succ n ih =>
    rw [Nat.mul_succ, run_add, ih (by omega), run_pushing (by omega) (by omega) (by rfl)]
    push_cast
    rfl

end Survey

open Survey in
/-- The survey of such a loop ends when its height no longer fits 64 bits. -/
theorem survey_of_pushingLoop : pushingLoop = .ok pushing ∧ maxStackDepth pushing = 2 ^ 63 - 1 ∧
    ∀ rounds, (run pushing rounds (start pushing)).work = [] ↔ 2 ^ 64 - 1 ≤ rounds := by
  have hfull : run pushing (2 ^ 64 - 2) (start pushing) =
      ⟨#[some (2 ^ 63 - 1), some (2 ^ 63 - 1)], [0], 2 ^ 63 - 1⟩ := by
    have hrun := run_pushing_start (n := 2 ^ 63 - 2) (by omega)
    exact hrun
  have hlast : run pushing (2 ^ 64 - 1) (start pushing) =
      ⟨#[some (2 ^ 63 - 1), some (2 ^ 63 - 1)], [], 2 ^ 63 - 1⟩ := by
    rw [show 2 ^ 64 - 1 = 2 ^ 64 - 2 + 1 by omega, run_add, hfull]
    decide
  have hend : (run pushing (2 ^ 64 - 1) (start pushing)).work = [] := by rw [hlast]
  refine ⟨rfl, ?_, fun rounds => ⟨fun hwork => ?_, fun hle => ?_⟩⟩
  · have hdone := run_of_work hend (m := patience pushing.size) (by show 2 ^ 64 - 1 ≤ 2 ^ 63 * 2; omega)
    rw [maxStackDepth, hdone, hlast]
  · by_contra hless
    have hkept := run_of_work hwork (m := 2 ^ 64 - 2) (by omega)
    rw [hfull] at hkept
    rw [← hkept] at hwork
    cases hwork
  · rw [run_of_work hend hle, hend]

end TileMind
