import TileMind.Program.Basic

/-!
# TileMind.Proofs.Program.Check

What an accepted program promises to whoever executes it: every instruction was checked at its place.

* `checkInstr_of_check`: no instruction of an accepted program fails its check.
* `target_of_checkInstr`, `callee_of_checkInstr`: jumps stay inside the code, and a called function
  exists.
-/

namespace TileMind

/-- A result of which something was tested exists. -/
theorem exists_of_any_toOption {ε α : Type} {r : Except ε α} {f : α → Bool}
    (h : r.toOption.any f = true) : ∃ a, r = .ok a ∧ f a = true := by
  cases r with
  | error e => cases h
  | ok a => exact ⟨a, rfl, h⟩

namespace Program

theorem firstError_eq_ok_iff (checks : List (Except ProgramError Unit)) :
    firstError checks = .ok () ↔ ∀ c ∈ checks, c = .ok () := by
  induction checks with
  | nil => simp [firstError]
  | cons c checks ih =>
    cases c with
    | ok u => simp [firstError, ih]
    | error e => simp [firstError]

theorem function?_eq_some_iff {p : Program} {i : Int} {fn : Function} :
    p.function? i = some fn ↔ ∃ n : Nat, i = n ∧ p.functions[n]? = some fn := by
  unfold function?
  split
  · rename_i h
    constructor
    · intro hf
      cases hf
    · rintro ⟨n, rfl, -⟩
      omega
  · rename_i h
    constructor
    · intro hf
      exact ⟨i.toNat, by omega, hf⟩
    · rintro ⟨n, rfl, hf⟩
      exact hf

theorem checkInstr_of_check {p : Program} (h : p.check = .ok ()) {func : Nat} {fn : Function}
    (hf : p.functions[func]? = some fn) {k : Nat} {i : Instr} (hi : fn.code[k]? = some i) :
    p.checkInstr fn.code.size ⟨func, k⟩ i = .ok () := by
  have hfn : p.checkFunction func fn = .ok () := by
    refine (firstError_eq_ok_iff _).mp h _ ?_
    refine List.mem_append_left _ (List.mem_append_right _ ?_)
    refine List.mem_map.mpr ⟨(fn, func), ?_, rfl⟩
    rw [List.mem_zipIdx_iff_getElem?, Array.getElem?_toList]
    exact hf
  refine (firstError_eq_ok_iff _).mp hfn _ ?_
  refine List.mem_map.mpr ⟨(i, k), ?_, rfl⟩
  rw [List.mem_zipIdx_iff_getElem?, Array.getElem?_toList]
  exact hi

theorem target_of_checkInstr {p : Program} {n : Nat} {site : Site} {i : Instr}
    (h : p.checkInstr n site i = .ok ()) (hj : i.isJump = true) :
    0 ≤ site.pc + i.a.toInt ∧ site.pc + i.a.toInt ≤ n := by
  obtain ⟨op, hop, hjump⟩ : ∃ op, i.op? = some op ∧ op.isJump = true := by
    cases hop : i.op? with
    | none => simp [Instr.isJump, hop] at hj
    | some op => exact ⟨op, rfl, by simpa [Instr.isJump, hop] using hj⟩
  cases op <;> simp [Op.isJump] at hjump <;> simp [checkInstr, hop, Op.isJump] at h <;> exact h

theorem callee_of_checkInstr {p : Program} {n : Nat} {site : Site} {i : Instr}
    (h : p.checkInstr n site i = .ok ()) (hop : i.op? = some .call) :
    ∃ fn, p.function? i.a.toInt = some fn := by
  have hin : inBounds i.a.toInt p.functions.size = true := by
    simpa [checkInstr, hop] using h
  simp only [inBounds, Bool.and_eq_true, decide_eq_true_eq] at hin
  have hlt : i.a.toInt.toNat < p.functions.size := by omega
  refine ⟨p.functions[i.a.toInt.toNat], ?_⟩
  rw [function?_eq_some_iff]
  exact ⟨i.a.toInt.toNat, by omega, Array.getElem?_eq_getElem hlt⟩

end Program
end TileMind
