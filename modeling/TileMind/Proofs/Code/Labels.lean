import Mathlib.Algebra.Group.Nat.Defs
import Mathlib.Data.List.Induction
import TileMind.Code.Assembler

/-!
# TileMind.Proofs.Code.Labels

Code with labels, put together by any sequence of requests. What was asked and answered tells which
instructions were added, and to which places the labels were bound.

* `patchAll_places`: filling in distances changes the waiting operands and nothing else.
* `Session.Sound.ask`: one request keeps an open assembler in step with what was asked and answered.
* `labels_resolved`: when code can be finished, what it is then, and what is possible afterwards.
* `operand_cut_by_emit`: an operand that 32 bits cannot hold.
-/

namespace TileMind

/-! ## Operands -/

namespace Instr

theorem setOperand_setOperand (i : Instr) (o : Operand) (v w : Int32) :
    (i.setOperand o v).setOperand o w = i.setOperand o w := by
  cases o <;> rfl

theorem setOperand_zero (code : UInt8) (o : Operand) :
    ({ code := code } : Instr).setOperand o 0 = { code := code } := by
  cases o <;> rfl

end Instr

theorem toInt_ofInt_sub {k i : Nat} (hk : k < 2 ^ 31) (hi : i < 2 ^ 31) :
    (Int32.ofInt ((k : Int) - i)).toInt = (k : Int) - i :=
  Int32.toInt_ofInt_of_le (by omega) (by omega)

namespace Assembler

/-! ## Requests -/

/-- What is asked of an assembler. -/
inductive Request where
  | newLabel
  | bind (label : Int)
  | emit (code : UInt8) (a b c : Int)
  | emitJump (code : UInt8) (label : Int) (operand : Operand)
  | finish
deriving DecidableEq

inductive Reply where
  | label (label : Nat)
  | bound
  | place (index : Nat)
  | code (code : Array Instr)
  | refused (error : AssemblerError)
deriving DecidableEq

/-- The answer to a request, and the assembler after it. Operands are cut to 32 bits. -/
def perform (s : Assembler) : Request → Reply × Assembler
  | .newLabel => (.label s.newLabel.1, s.newLabel.2)
  | .bind label =>
    match s.bind label with
    | .ok s' => (.bound, s')
    | .error e => (.refused e, s)
  | .emit code a b c =>
    match s.emit ⟨code, Int32.ofInt a, Int32.ofInt b, Int32.ofInt c⟩ with
    | .ok (i, s') => (.place i, s')
    | .error e => (.refused e, s)
  | .emitJump code label operand =>
    match s.emitJump code label operand with
    | .ok (i, s') => (.place i, s')
    | .error e => (.refused e, s)
  | .finish =>
    match s.finish with
    | (.ok code, s') => (.code code, s')
    | (.error e, s') => (.refused e, s')

/-- An assembler with what was asked of it and what it answered. -/
structure Session where
  assembler : Assembler := {}
  said : List (Request × Reply) := []

def added? : Request × Reply → Option Request
  | (r, .place _) => some r
  | _ => none

/-- The requests for the instructions that were added. -/
def added (said : List (Request × Reply)) : List Request := said.filterMap added?

/-- A label was bound to the place of the next instruction. -/
def BoundAt (said : List (Request × Reply)) (label : Int) (k : Nat) : Prop :=
  ∃ before after, said = before ++ (.bind label, .bound) :: after ∧ k = (added before).length

/-- What has to be in the `i`-th place of the code for a request. -/
inductive Stands (said : List (Request × Reply)) (i : Nat) : Request → Instr → Prop
  | emit (code : UInt8) (a b c : Int) :
    Stands said i (.emit code a b c) ⟨code, Int32.ofInt a, Int32.ofInt b, Int32.ofInt c⟩
  | jump {code : UInt8} {label : Int} {operand : Operand} {k : Nat} {distance : Int32} :
    BoundAt said label k → distance.toInt = (k : Int) - i →
    Stands said i (.emitJump code label operand) (({ code := code } : Instr).setOperand operand distance)

namespace Session

def ask (t : Session) (r : Request) : Session :=
  ⟨(t.assembler.perform r).2, t.said ++ [(r, (t.assembler.perform r).1)]⟩

def run (rs : List Request) : Session := rs.foldl ask {}

def IsOpen (t : Session) : Prop := ∀ r code, (r, .code code) ∉ t.said

end Session

/-! ## Filling in distances -/

/-- What is in the place of a request, whatever the distance. -/
inductive Waits : Request → Instr → Prop
  | emit (code : UInt8) (a b c : Int) :
    Waits (.emit code a b c) ⟨code, Int32.ofInt a, Int32.ofInt b, Int32.ofInt c⟩
  | jump (code : UInt8) (label : Int) (operand : Operand) (distance : Int32) :
    Waits (.emitJump code label operand) (({ code := code } : Instr).setOperand operand distance)

/-- Code with one instruction for each request. -/
structure Fills (rs : List Request) (code : Array Instr) : Prop where
  size : code.size = rs.length
  place : ∀ (i : Nat) r, rs[i]? = some r → ∃ instr, code[i]? = some instr ∧ Waits r instr

/-- The distance of a jump in the `i`-th place is filled in. -/
def PatchedAt (labels : Array (Option Nat)) (rs : List Request) (code : Array Instr) (i : Nat) : Prop :=
  ∀ op label operand, rs[i]? = some (.emitJump op label operand) → ∃ place,
    labels[label.toNat]? = some (some place) ∧
    code[i]? = some (({ code := op } : Instr).setOperand operand (Int32.ofInt ((place : Int) - i)))

/-- The request for the jump that an operand belongs to. -/
def Waiting (rs : List Request) (f : Fixup) : Prop :=
  ∃ op, rs[f.index]? = some (.emitJump op f.label f.operand)

section

variable {labels : Array (Option Nat)} {rs : List Request} {code code' : Array Instr} {f : Fixup}

theorem getD_eq_some {n place : Nat} : labels.getD n none = some place ↔ labels[n]? = some (some place) := by
  rw [Array.getD_eq_getD_getElem?]
  cases labels[n]? <;> simp

theorem patch_ok (hcode : Fills rs code) (hf : Waiting rs f) (hpatch : patch labels code f = .ok code') :
    Fills rs code' ∧ PatchedAt labels rs code' f.index ∧
    ∀ i, PatchedAt labels rs code i → PatchedAt labels rs code' i := by
  obtain ⟨op, hjump⟩ := hf
  obtain ⟨instr, hinstr, hwaits⟩ := hcode.place _ _ hjump
  obtain ⟨place, hplace⟩ : ∃ place, labels.getD f.label none = some place := by
    cases hplace : labels.getD f.label none with
    | none => simp [patch, hplace] at hpatch
    | some place => exact ⟨place, rfl⟩
  simp only [patch, hplace, Except.ok.injEq] at hpatch
  obtain ⟨_, _, _, v⟩ := hwaits
  have hat (i : Nat) : code'[i]? = if f.index = i
      then some (({ code := op } : Instr).setOperand f.operand (Int32.ofInt ((place : Int) - i)))
      else code[i]? := by
    rw [← hpatch, Array.getElem?_modify]
    split
    · rename_i hi
      subst hi
      rw [hinstr, Option.map_some, Instr.setOperand_setOperand]
    · rfl
  have hself : PatchedAt labels rs code' f.index := by
    intro op' label operand hr
    obtain ⟨rfl, rfl, rfl⟩ : op = op' ∧ (f.label : Int) = label ∧ f.operand = operand := by
      simpa [hjump] using hr
    exact ⟨place, getD_eq_some.mp hplace, by rw [hat, if_pos rfl]⟩
  refine ⟨⟨by rw [← hpatch, Array.size_modify, hcode.size], fun i r hr => ?_⟩, hself, fun i hi => ?_⟩
  · rw [hat]
    split
    · rename_i hi
      subst hi
      obtain rfl : Request.emitJump op f.label f.operand = r := by simpa [hjump] using hr
      exact ⟨_, rfl, .jump _ _ _ _⟩
    · exact hcode.place i r hr
  · by_cases hfi : f.index = i
    · exact hfi ▸ hself
    · intro op' label operand hr
      rw [hat, if_neg hfi]
      exact hi op' label operand hr

/-- Filling in distances in turn fills them all in, or it stops at a label without a place. -/
theorem patchAll_places (labels : Array (Option Nat)) {fs : List Fixup} (hcode : Fills rs code)
    (hfs : ∀ f ∈ fs, Waiting rs f) :
    Fills rs (patchAll labels fs code).1 ∧
    (∀ i, PatchedAt labels rs code i → PatchedAt labels rs (patchAll labels fs code).1 i) ∧
    ((patchAll labels fs code).2 = none →
      ∀ f ∈ fs, PatchedAt labels rs (patchAll labels fs code).1 f.index) ∧
    (∀ e, (patchAll labels fs code).2 = some e →
      ∃ f ∈ fs, e = .neverBound f.label f.index ∧ labels.getD f.label none = none) := by
  induction fs generalizing code with
  | nil => exact ⟨hcode, fun _ h => h, by simp, by simp [patchAll]⟩
  | cons f fs ih =>
    rw [List.forall_mem_cons] at hfs
    cases hpatch : patch labels code f with
    | error e =>
      have hall : patchAll labels (f :: fs) code = (code, some e) := by simp [patchAll, hpatch]
      have hlabel : labels.getD f.label none = none ∧ e = .neverBound f.label f.index := by
        cases hplace : labels.getD f.label none <;> simp [patch, hplace] at hpatch
        exact ⟨rfl, hpatch.symm⟩
      rw [hall]
      refine ⟨hcode, fun _ h => h, by simp, ?_⟩
      rintro _ ⟨rfl⟩
      exact ⟨f, List.mem_cons_self, hlabel.2, hlabel.1⟩
    | ok code' =>
      have hall : patchAll labels (f :: fs) code = patchAll labels fs code' := by
        simp [patchAll, hpatch]
      obtain ⟨hcode', hself, hkept⟩ := patch_ok hcode hfs.1 hpatch
      obtain ⟨hfills, hstill, hdone, hfailed⟩ := ih hcode' hfs.2
      rw [hall]
      refine ⟨hfills, fun i hi => hstill i (hkept i hi), fun hnone => ?_, fun e he => ?_⟩
      · exact List.forall_mem_cons.mpr ⟨hstill _ hself, hdone hnone⟩
      · obtain ⟨g, hg, hwhy⟩ := hfailed e he
        exact ⟨g, List.mem_cons_of_mem _ hg, hwhy⟩

end

/-! ## What was said -/

section

variable {s : Assembler} {said : List (Request × Reply)} {x : Request × Reply} {label : Int} {k : Nat}

theorem added_concat (said : List (Request × Reply)) (x : Request × Reply) :
    added (said ++ [x]) = added said ++ (added? x).toList := by
  rw [added, List.filterMap_append]
  cases h : added? x <;> simp [added, h]

theorem boundAt_concat :
    BoundAt (said ++ [x]) label k ↔
      BoundAt said label k ∨ x = (.bind label, .bound) ∧ k = (added said).length := by
  constructor
  · rintro ⟨before, after, heq, hk⟩
    rcases List.eq_nil_or_concat after with rfl | ⟨after, y, rfl⟩
    · obtain ⟨rfl, hx⟩ := List.append_inj' heq rfl
      exact .inr ⟨by simpa using hx, hk⟩
    · rw [List.concat_eq_append, ← List.cons_append, ← List.append_assoc] at heq
      obtain ⟨rfl, -⟩ := List.append_inj' heq rfl
      exact .inl ⟨before, after, rfl, hk⟩
  · rintro (⟨before, after, rfl, hk⟩ | ⟨rfl, hk⟩)
    · exact ⟨before, after ++ [x], by simp, hk⟩
    · exact ⟨said, [], rfl, hk⟩

theorem label?_eq_some {x : Option Nat} :
    s.label? label = some x ↔ ∃ n : Nat, label = n ∧ s.labels[n]? = some x := by
  unfold label?
  split
  · rename_i hneg
    simp
    omega
  · rename_i hneg
    constructor
    · exact fun h => ⟨label.toNat, by omega, h⟩
    · rintro ⟨n, rfl, h⟩
      simpa using h

theorem perform_bind {n : Nat} (h : s.labels[n]? = some none) : s.perform (.bind n) =
    (.bound, { s with labels := s.labels.setIfInBounds n (some s.code.size) }) := by
  simp [perform, bind, label?_eq_some.mpr ⟨n, rfl, h⟩]

end

/-! ## An open assembler -/

namespace Session

variable {t : Session} {r : Request}

/-- What holds of an assembler that was not finished yet. -/
structure Sound (t : Session) : Prop where
  unfinished : t.assembler.isFinished = false
  fills : Fills (added t.said) t.assembler.code
  places : ∀ r i, (r, .place i) ∈ t.said ↔ (added t.said)[i]? = some r
  known : ∀ label, (Request.newLabel, Reply.label label) ∈ t.said ↔ label < t.assembler.labels.size
  bound : ∀ label k, BoundAt t.said label k ↔
    ∃ n : Nat, label = n ∧ t.assembler.labels[n]? = some (some k)
  waiting : ∀ f ∈ t.assembler.fixups, Waiting (added t.said) f ∧ f.label < t.assembler.labels.size
  fixed : ∀ i op (label : Int) operand, (added t.said)[i]? = some (.emitJump op label operand) →
    ∃ n : Nat, label = n ∧ ⟨i, n, operand⟩ ∈ t.assembler.fixups

theorem sound_empty : Sound {} where
  unfinished := rfl
  fills := ⟨rfl, by simp [added]⟩
  places := by simp [added]
  known := by simp
  bound := by simp [BoundAt]
  waiting := by simp
  fixed := by simp [added]

theorem Sound.spoken (ht : t.Sound) {s : Assembler} {reply : Reply} (hreply : ∀ i, reply ≠ .place i)
    (hopen : s.isFinished = false) (hcode : Fills (added t.said) s.code)
    (hfixups : s.fixups = t.assembler.fixups)
    (hknown : ∀ n, n < s.labels.size ↔
      n < t.assembler.labels.size ∨ (r, reply) = (.newLabel, .label n))
    (hbound : ∀ (n : Nat) k, s.labels[n]? = some (some k) ↔
      t.assembler.labels[n]? = some (some k) ∨
        (r, reply) = (.bind n, .bound) ∧ k = (added t.said).length)
    (hlabel : ∀ label, (r, reply) = (.bind label, .bound) → ∃ n : Nat, label = n) :
    Sound ⟨s, t.said ++ [(r, reply)]⟩ := by
  have hadded : added (t.said ++ [(r, reply)]) = added t.said := by
    cases reply with
    | place i => exact absurd rfl (hreply i)
    | _ => simp [added_concat, added?]
  refine ⟨hopen, hadded ▸ hcode, fun r' i => ?_, fun n => ?_, fun label k => ?_, fun f hf => ?_, ?_⟩ <;>
    dsimp only at *
  · have hne : ¬ (r', Reply.place i) = (r, reply) := fun h => hreply i (Prod.mk.inj h).2.symm
    rw [hadded, List.mem_append, List.mem_singleton, or_iff_left hne, ht.places]
  · rw [List.mem_append, List.mem_singleton, ht.known, hknown, eq_comm (a := (r, reply))]
  · rw [boundAt_concat, ht.bound]
    constructor
    · rintro (⟨n, rfl, h⟩ | ⟨hx, hk⟩)
      · exact ⟨n, rfl, (hbound n k).mpr (.inl h)⟩
      · obtain ⟨n, rfl⟩ := hlabel label hx
        exact ⟨n, rfl, (hbound n k).mpr (.inr ⟨hx, hk⟩)⟩
    · rintro ⟨n, rfl, h⟩
      exact ((hbound n k).mp h).imp (fun h => ⟨n, rfl, h⟩) id
  · rw [hfixups] at hf
    obtain ⟨hwaiting, hlt⟩ := ht.waiting f hf
    exact ⟨hadded ▸ hwaiting, (hknown _).mpr (.inl hlt)⟩
  · simpa only [hadded, hfixups] using ht.fixed

/-- A refusal changes nothing, but for distances that were filled in. -/
theorem Sound.refused (ht : t.Sound) {code : Array Instr} (hcode : Fills (added t.said) code)
    (r : Request) (e : AssemblerError) :
    Sound ⟨{ t.assembler with code := code }, t.said ++ [(r, .refused e)]⟩ :=
  ht.spoken nofun ht.unfinished hcode rfl (by simp) (by simp) (by simp)

/-- An instruction comes to the end of the code. A jump waits for its label. -/
theorem Sound.placed (ht : t.Sound) {instr : Instr} {fs : List Fixup} (hwaits : Waits r instr)
    (hfs : ∀ f, f ∈ fs ↔ ∃ op, r = .emitJump op f.label f.operand ∧ f.index = t.assembler.code.size)
    (hlabel : ∀ op label operand, r = .emitJump op label operand →
      ∃ n : Nat, label = n ∧ n < t.assembler.labels.size) :
    Sound ⟨{ t.assembler with code := t.assembler.code.push instr, fixups := t.assembler.fixups ++ fs },
      t.said ++ [(r, .place t.assembler.code.size)]⟩ := by
  have hadded : added (t.said ++ [(r, .place t.assembler.code.size)]) = added t.said ++ [r] := by
    simp [added_concat, added?]
  have hsize := ht.fills.size
  refine ⟨ht.unfinished, ?_, ?_, ?_, ?_, ?_, ?_⟩ <;> dsimp only
  · rw [hadded]
    refine ⟨by simp [hsize], fun i r' hr => ?_⟩
    rw [List.getElem?_append] at hr
    split at hr
    · rename_i hi
      rw [Array.getElem?_push_lt (hsize ▸ hi), ← Array.getElem?_eq_getElem]
      exact ht.fills.place i r' hr
    · rename_i hi
      obtain ⟨hzero, rfl⟩ : i - (added t.said).length = 0 ∧ r = r' := by
        simpa [List.getElem?_singleton] using hr
      obtain rfl : i = t.assembler.code.size := by omega
      exact ⟨instr, Array.getElem?_push_size, hwaits⟩
  · intro r' i
    rw [hadded, List.mem_append, ht.places, List.mem_singleton, List.getElem?_append]
    split
    · rename_i hi
      simp
      omega
    · rename_i hi
      rw [List.getElem?_eq_none (by omega), List.getElem?_singleton]
      simp only [reduceCtorEq, Prod.mk.injEq, Reply.place.injEq, false_or, Option.ite_none_right_eq_some,
        Option.some.injEq]
      exact ⟨fun ⟨hr, hi⟩ => ⟨by omega, hr.symm⟩, fun ⟨hi, hr⟩ => ⟨hr.symm, by omega⟩⟩
  · simpa using ht.known
  · intro label k
    rw [boundAt_concat]
    simpa using ht.bound label k
  · intro f hf
    rw [hadded]
    rcases List.mem_append.mp hf with hf | hf
    · obtain ⟨⟨op, hop⟩, hlt⟩ := ht.waiting f hf
      exact ⟨⟨op, by rw [List.getElem?_append_left (List.getElem?_eq_some_iff.mp hop).1, hop]⟩, hlt⟩
    · obtain ⟨op, rfl, hindex⟩ := (hfs f).mp hf
      obtain ⟨n, hn, hlt⟩ := hlabel op f.label f.operand rfl
      exact ⟨⟨op, by rw [hindex, hsize, List.getElem?_concat_length]⟩, by omega⟩
  · intro i op label operand hr
    rw [hadded, List.getElem?_append] at hr
    split at hr
    · obtain ⟨n, hn, hmem⟩ := ht.fixed i op label operand hr
      exact ⟨n, hn, List.mem_append_left _ hmem⟩
    · rename_i hi
      obtain ⟨hzero, rfl⟩ : i - (added t.said).length = 0 ∧ r = .emitJump op label operand := by
        simpa [List.getElem?_singleton] using hr
      obtain ⟨n, rfl, -⟩ := hlabel op label operand rfl
      exact ⟨n, rfl, List.mem_append_right _ ((hfs _).mpr ⟨op, rfl, by dsimp only; omega⟩)⟩

theorem ask_of_perform {reply : Reply} {s : Assembler} (h : t.assembler.perform r = (reply, s)) :
    t.ask r = ⟨s, t.said ++ [(r, reply)]⟩ := by
  rw [ask, h]

theorem Sound.newLabel (ht : t.Sound) : (t.ask .newLabel).Sound := by
  rw [ask_of_perform rfl]
  refine ht.spoken nofun ht.unfinished ht.fills rfl (fun n => ?_) (fun n k => ?_) (by simp)
  · simp only [Assembler.newLabel, Array.size_push, Prod.mk.injEq, Reply.label.injEq, true_and]
    omega
  · simp only [Assembler.newLabel, Array.getElem?_push]
    split
    · rename_i hn
      simp [hn]
    · simp

theorem Sound.bind (ht : t.Sound) (label : Int) : (t.ask (.bind label)).Sound := by
  cases hlabel : t.assembler.label? label with
  | none =>
    have hp : t.assembler.perform (.bind label) = (.refused (.unknownLabel label), t.assembler) := by
      simp [perform, Assembler.bind, hlabel]
    rw [ask_of_perform hp]
    exact ht.refused ht.fills _ _
  | some place =>
    obtain ⟨n, rfl, hn⟩ := label?_eq_some.mp hlabel
    cases place with
    | some k =>
      have hp : t.assembler.perform (.bind n) = (.refused (.boundTwice n), t.assembler) := by
        simp [perform, Assembler.bind, hlabel]
      rw [ask_of_perform hp]
      exact ht.refused ht.fills _ _
    | none =>
      rw [ask_of_perform (perform_bind hn)]
      refine ht.spoken nofun ht.unfinished ht.fills rfl (by simp) (fun m k => ?_) fun label h => ?_
      · rw [Array.getElem?_setIfInBounds, ← ht.fills.size]
        have hlt := (Array.getElem?_eq_some_iff.mp hn).1
        by_cases hnm : n = m
        · subst hnm
          rw [if_pos rfl, if_pos hlt, hn]
          simpa using eq_comm
        · rw [if_neg hnm]
          refine (or_iff_left fun hother => hnm ?_).symm
          injection (Prod.mk.inj hother.1).1 with hlabels
          exact Int.ofNat_inj.mp hlabels
      · exact ⟨n, by simpa [eq_comm] using h⟩

theorem Sound.emitJump (ht : t.Sound) (code : UInt8) (label : Int) (operand : Operand) :
    (t.ask (.emitJump code label operand)).Sound := by
  have hopen := ht.unfinished
  cases hlabel : t.assembler.label? label with
  | none =>
    have hp : t.assembler.perform (.emitJump code label operand) =
        (.refused (.unknownLabel label), t.assembler) := by
      simp [perform, Assembler.emitJump, hopen, hlabel]
    rw [ask_of_perform hp]
    exact ht.refused ht.fills _ _
  | some place =>
    obtain ⟨n, rfl, hn⟩ := label?_eq_some.mp hlabel
    have hp : t.assembler.perform (.emitJump code n operand) =
        (.place t.assembler.code.size, { t.assembler with
          code := t.assembler.code.push { code := code }
          fixups := t.assembler.fixups ++ [⟨t.assembler.code.size, n, operand⟩] }) := by
      simp [perform, Assembler.emitJump, hopen, hlabel]
    rw [ask_of_perform hp]
    refine ht.placed ?_ (fun f => ?_) ?_
    · rw [← Instr.setOperand_zero]
      exact .jump code n operand 0
    · obtain ⟨index, label, operand'⟩ := f
      simp
      grind
    · rintro _ _ _ ⟨⟩
      exact ⟨n, rfl, (Array.getElem?_eq_some_iff.mp hn).1⟩

/-- Finishing fills in every distance, or there is a jump whose label has no place. -/
theorem Sound.finish_cases (ht : t.Sound) :
    (∃ code, t.assembler.perform .finish =
        (.code code, { t.assembler with code := code, isFinished := true }) ∧
      Fills (added t.said) code ∧ ∀ i, PatchedAt t.assembler.labels (added t.said) code i) ∨
    ∃ code, ∃ f ∈ t.assembler.fixups, t.assembler.perform .finish =
        (.refused (.neverBound f.label f.index), { t.assembler with code := code }) ∧
      Fills (added t.said) code ∧ t.assembler.labels.getD f.label none = none := by
  have hplaces := patchAll_places t.assembler.labels ht.fills fun f hf => (ht.waiting f hf).1
  rcases hpatch : patchAll t.assembler.labels t.assembler.fixups t.assembler.code with ⟨code, e⟩
  rw [hpatch] at hplaces
  obtain ⟨hfills, -, hdone, hfailed⟩ := hplaces
  cases e with
  | none =>
    refine .inl ⟨code, by simp [perform, finish, ht.unfinished, hpatch], hfills, ?_⟩
    intro i op label operand hr
    obtain ⟨n, -, hmem⟩ := ht.fixed i op label operand hr
    exact hdone rfl _ hmem op label operand hr
  | some e =>
    obtain ⟨f, hf, rfl, hnone⟩ := hfailed e rfl
    exact .inr ⟨code, f, hf, by simp [perform, finish, ht.unfinished, hpatch], hfills, hnone⟩

theorem Sound.ask (ht : t.Sound) (r : Request) (hopen : (t.ask r).IsOpen) : (t.ask r).Sound := by
  cases r with
  | newLabel => exact ht.newLabel
  | bind label => exact ht.bind label
  | emit code a b c =>
    have hp : t.assembler.perform (.emit code a b c) = (.place t.assembler.code.size,
        { t.assembler with
          code := t.assembler.code.push ⟨code, Int32.ofInt a, Int32.ofInt b, Int32.ofInt c⟩
          fixups := t.assembler.fixups ++ [] }) := by
      simp [perform, Assembler.emit, ht.unfinished]
    rw [ask_of_perform hp]
    exact ht.placed (.emit code a b c) (by simp) nofun
  | emitJump code label operand => exact ht.emitJump code label operand
  | finish =>
    rcases ht.finish_cases with ⟨code, hp, -⟩ | ⟨code, f, -, hp, hfills, -⟩ <;> rw [ask_of_perform hp] at *
    · exact absurd (by simp) (hopen .finish code)
    · exact ht.refused hfills _ _

theorem sound_run (rs : List Request) (hopen : (run rs).IsOpen) : (run rs).Sound := by
  induction rs using List.reverseRecOn with
  | nil => exact sound_empty
  | append_singleton rs r ih =>
    rw [run, List.foldl_append] at hopen ⊢
    exact (ih fun r' code hmem => hopen r' code (List.mem_append_left _ hmem)).ask r hopen

/-! ## A finished assembler -/

/-- Nothing can be added to finished code. -/
def Rejected (r : Request) (reply : Reply) : Prop :=
  match r with
  | .newLabel | .bind _ => True
  | .emit .. | .emitJump .. | .finish => reply = .refused .finished

theorem perform_of_finished {s : Assembler} (hs : s.isFinished = true) (r : Request) :
    (s.perform r).2.isFinished = true ∧ (s.perform r).2.code = s.code ∧
      Rejected r (s.perform r).1 := by
  cases r with
  | newLabel => exact ⟨hs, rfl, trivial⟩
  | bind label =>
    rcases hbind : s.bind label with e | s'
    · simp [perform, hbind, hs, Rejected]
    · unfold Assembler.bind at hbind
      split at hbind <;> cases hbind
      simp [perform, Assembler.bind, *, Rejected]
  | emit code a b c => simp [perform, Assembler.emit, hs, Rejected]
  | emitJump code label operand => simp [perform, Assembler.emitJump, hs, Rejected]
  | finish => simp [perform, finish, hs, Rejected]

/-- Whatever is asked after the end, the code stays as it is. -/
theorem foldl_of_finished (hs : t.assembler.isFinished = true) (rs : List Request) :
    (rs.foldl ask t).assembler.code = t.assembler.code ∧
    ∃ more, (rs.foldl ask t).said = t.said ++ more ∧ ∀ x ∈ more, Rejected x.1 x.2 := by
  induction rs generalizing t with
  | nil => exact ⟨rfl, [], by simp, by simp⟩
  | cons r rs ih =>
    obtain ⟨hstill, hcode, hrejected⟩ := perform_of_finished hs r
    obtain ⟨hrest, more, hsaid, hall⟩ := ih (t := t.ask r) hstill
    refine ⟨hrest.trans hcode, (r, (t.assembler.perform r).1) :: more, ?_,
      List.forall_mem_cons.mpr ⟨hrejected, hall⟩⟩
    rw [List.foldl_cons, hsaid]
    simp [ask]

/-! ## What code is finished -/

theorem perform_refused {s : Assembler} {e : AssemblerError} (hr : r ≠ .finish)
    (h : (s.perform r).1 = .refused e) : (s.perform r).2 = s := by
  cases r <;> simp only [perform] at h ⊢
  case newLabel => cases h
  case finish => exact absurd rfl hr
  all_goals split at h <;> first | rfl | cases h

theorem le_of_boundAt {said : List (Request × Reply)} {label : Int} {k : Nat}
    (h : BoundAt said label k) : k ≤ (added said).length := by
  obtain ⟨before, after, rfl, rfl⟩ := h
  simp [added]

theorem Sound.stands (ht : t.Sound) (hshort : (added t.said).length < 2 ^ 31) {code : Array Instr}
    (hcode : Fills (added t.said) code)
    (hpatched : ∀ i, PatchedAt t.assembler.labels (added t.said) code i) (i : Nat) (r : Request)
    (hr : (added t.said)[i]? = some r) : ∃ instr, code[i]? = some instr ∧ Stands t.said i r instr := by
  obtain ⟨instr, hinstr, hwaits⟩ := hcode.place i r hr
  cases hwaits with
  | emit code a b c => exact ⟨_, hinstr, .emit code a b c⟩
  | jump op label operand distance =>
    obtain ⟨k, hlabel, hinstr⟩ := hpatched i op label operand hr
    obtain ⟨n, rfl, -⟩ := ht.fixed i op label operand hr
    have hbound : BoundAt t.said n k := (ht.bound n k).mpr ⟨n, rfl, by simpa using hlabel⟩
    have hk := le_of_boundAt hbound
    have hi := (List.getElem?_eq_some_iff.mp hr).1
    exact ⟨_, hinstr, .jump hbound (toInt_ofInt_sub (by omega) (by omega))⟩

theorem Sound.finish_iff (ht : t.Sound) : (∃ code, (t.assembler.perform .finish).1 = .code code) ↔
    ∀ op label operand, .emitJump op label operand ∈ added t.said → ∃ k, BoundAt t.said label k := by
  rcases ht.finish_cases with ⟨code, hp, -, hpatched⟩ | ⟨code, f, hf, hp, -, hnone⟩ <;> rw [hp]
  · refine iff_of_true ⟨code, rfl⟩ fun op label operand hmem => ?_
    obtain ⟨i, hi⟩ := List.mem_iff_getElem?.mp hmem
    obtain ⟨n, rfl, -⟩ := ht.fixed i op label operand hi
    obtain ⟨k, hlabel, -⟩ := hpatched i op n operand hi
    exact ⟨k, (ht.bound n k).mpr ⟨n, rfl, by simpa using hlabel⟩⟩
  · refine iff_of_false nofun fun hall => ?_
    obtain ⟨op, hop⟩ := (ht.waiting f hf).1
    obtain ⟨k, hbound⟩ := hall op f.label f.operand (List.mem_of_getElem? hop)
    obtain ⟨n, hn, hlabel⟩ := (ht.bound f.label k).mp hbound
    obtain rfl : f.label = n := by omega
    simp [getD_eq_some.mpr hlabel] at hnone

/-- A label that is missing can be bound, and then the code can be finished. -/
theorem Sound.repair (ht : t.Sound) {e : AssemblerError}
    (h : (t.assembler.perform .finish).1 = .refused e) : ∃ label index, e = .neverBound label index ∧
      ((t.ask .finish).assembler.perform (.bind label)).1 = .bound := by
  rcases ht.finish_cases with ⟨code, hp, -⟩ | ⟨code, f, hf, hp, -, hnone⟩ <;> rw [hp] at h
  · cases h
  · obtain rfl : .neverBound f.label f.index = e := by simpa using h
    refine ⟨f.label, f.index, rfl, ?_⟩
    have hlt := (ht.waiting f hf).2
    have hlabel : t.assembler.labels[f.label]? = some none := by
      rw [Array.getD_eq_getD_getElem?, Array.getElem?_eq_getElem hlt, Option.getD_some] at hnone
      rw [Array.getElem?_eq_getElem hlt, hnone]
    rw [ask_of_perform hp]
    exact congrArg Prod.fst (perform_bind (s := { t.assembler with code := code }) hlabel)

end Session

open Session in
/-- For every sequence of requests in which nothing was finished yet, and code shorter than `2 ^ 31`:
instructions got the places in their order, and a label has one place at most. The code can be
finished if and only if every label that a jump names was bound; if not, a label is missing that can
still be bound. A request that is refused changes nothing, in whatever state the assembler is. The finished
code has one instruction for each that was added, with its operands cut to 32 bits, or with the distance from
the jump to the place of its label. Nothing that is asked afterwards adds to it or changes it. -/
theorem labels_resolved (rs : List Request) {t : Session} (ht : run rs = t) (hopen : t.IsOpen)
    (hshort : (added t.said).length < 2 ^ 31) :
    (∀ r i, (r, .place i) ∈ t.said ↔ (added t.said)[i]? = some r) ∧
    (∀ label k k', BoundAt t.said label k → BoundAt t.said label k' → k = k') ∧
    ((∃ code, (t.assembler.perform .finish).1 = .code code) ↔
      ∀ op label operand, .emitJump op label operand ∈ added t.said → ∃ k, BoundAt t.said label k) ∧
    (∀ e, (t.assembler.perform .finish).1 = .refused e → ∃ label index, e = .neverBound label index ∧
      ((t.ask .finish).assembler.perform (.bind label)).1 = .bound) ∧
    (∀ (s : Assembler) r e, r ≠ .finish → (s.perform r).1 = .refused e → (s.perform r).2 = s) ∧
    ∀ code, (t.assembler.perform .finish).1 = .code code →
      code.size = (added t.said).length ∧
      (∀ (i : Nat) r, (added t.said)[i]? = some r →
        ∃ instr, code[i]? = some instr ∧ Stands t.said i r instr) ∧
      ∀ more : List Request, (more.foldl ask (t.ask .finish)).assembler.code = code ∧
        ∃ said, (more.foldl ask (t.ask .finish)).said = (t.ask .finish).said ++ said ∧
          ∀ x ∈ said, Rejected x.1 x.2 := by
  have hs : t.Sound := ht ▸ sound_run rs (ht ▸ hopen)
  refine ⟨hs.places, fun label k k' hk hk' => ?_, hs.finish_iff, fun e => hs.repair,
    fun s r e => perform_refused, fun code hfinish => ?_⟩
  · obtain ⟨n, rfl, hn⟩ := (hs.bound label k).mp hk
    obtain ⟨n', hn', hn''⟩ := (hs.bound n k').mp hk'
    obtain rfl : n = n' := by omega
    simpa [hn] using hn''
  · rcases hs.finish_cases with ⟨code', hp, hfills, hpatched⟩ | ⟨code', f, -, hp, -⟩ <;>
      rw [hp] at hfinish
    · obtain rfl : code' = code := by simpa using hfinish
      refine ⟨hfills.size, hs.stands hshort hfills hpatched, fun more => ?_⟩
      rw [ask_of_perform hp]
      exact foldl_of_finished rfl more
    · cases hfinish

/-- A jump forward and one back, with a label that is bound after the first try to finish. -/
def windingRequests : List Request :=
  [.newLabel, .newLabel, .bind 0, .emitJump Op.try.byte 1 .b, .emit Op.pushConst.byte 7 0 0,
    .emitJump Op.jump.byte 0 .a, .finish, .bind 5, .bind 1]

open Session in
theorem labels_resolved_winding :
    (.finish, .refused (.neverBound 1 0)) ∈ (run windingRequests).said ∧ ∃ code, code.size = 3 ∧
    ((run windingRequests).assembler.perform .finish).1 = .code code ∧
    (∃ instr, code[0]? = some instr ∧
      Stands (run windingRequests).said 0 (.emitJump Op.try.byte 1 .b) instr) ∧
    (run (windingRequests ++ [.finish, .emit Op.ret.byte 0 0 0])).assembler.code = code := by
  have hopen : (run windingRequests).IsOpen := by
    intro r code hmem
    have hsaid : (run windingRequests).said.all fun x => !x.2 matches .code _ := by decide
    simpa using List.all_eq_true.mp hsaid _ hmem
  obtain ⟨-, -, -, -, -, hcode⟩ := labels_resolved windingRequests rfl hopen (by decide)
  have hfinish : ((run windingRequests).assembler.perform .finish).1 =
      .code #[⟨Op.try.byte, 0, 3, 0⟩, ⟨Op.pushConst.byte, 7, 0, 0⟩, ⟨Op.jump.byte, -2, 0, 0⟩] := by
    decide
  obtain ⟨hsize, hstands, hafter⟩ := hcode _ hfinish
  exact ⟨by decide, _, hsize, hfinish, hstands 0 _ rfl, (hafter [.emit Op.ret.byte 0 0 0]).1⟩

open Session in
/-- An operand of more than 32 bits does not come out as it was given. -/
theorem operand_cut_by_emit : ∃ i : Instr, i.a.toInt = -2147483648 ∧
    (run [.emit Op.nop.byte 2147483648 0 0, .finish]).said =
      [(.emit Op.nop.byte 2147483648 0 0, .place 0), (.finish, .code #[i])] :=
  ⟨⟨Op.nop.byte, -2147483648, 0, 0⟩, by decide, by decide⟩

end Assembler

end TileMind
