import Mathlib
import TileMind.Proofs.Program.Records
import TileMind.Proofs.Text.Decoding
import TileMind.Proofs.Value.Containment
import TileMind.Proofs.Value.Lookup
import TileMind.Script.Convert

/-!
# TileMind.Proofs.Script.RoundTrip

Values that go into a script and come back unchanged. They come back as fresh objects without types, and maps come back
in the order of the bytes of their keys. What lies inside more than 32 containers comes back as nil.

* `Heap.Plain`: values that a script can hold.
* `Datum.tidy`, `Datum.cut`: what is left of a value.
* `Script.gives_valueOfTo`: level by level, a converted value is what is left of it.
* `Script.ends_valueOfTo`: whatever comes from a script ends at the last level.
* `Script.valueOf_treeOf`: there and back again.
-/

namespace TileMind

/-! ## Values for scripts -/

namespace Heap

/-- Booleans, numbers, strings and nil, lists, and maps whose keys are different strings. -/
def PlainPart (h : Heap) : Value → Prop
  | .scalar s => s = .nil ∨ (∃ b, s = .bool b) ∨ (∃ x, s = .number x) ∨ ∃ text, s = .string text
  | .list _ _ => True
  | .map _ ref => (∀ k ∈ (h.map ref).keys, ∃ name, k = .string name) ∧ (h.map ref).keys.Nodup
  | .struct _ _ | .handle _ | .error _ => False

/-- A value is made of plain parts only. It may hold itself. -/
def Plain (h : Heap) (v : Value) : Prop := ∀ x, Relation.ReflTransGen h.Holds v x → h.PlainPart x

theorem Plain.part {h : Heap} {v : Value} (hplain : h.Plain v) : h.PlainPart v := hplain v .refl

theorem Plain.held {h : Heap} {v x : Value} (hplain : h.Plain v) (hx : h.Holds v x) : h.Plain x :=
  fun y hy => hplain y (.head hx hy)

theorem plain_of_held {h : Heap} {v : Value} (hpart : h.PlainPart v) (hheld : ∀ x, h.Holds v x → h.Plain x) :
    h.Plain v := by
  intro x hx
  obtain rfl | ⟨y, hy, hx⟩ := hx.cases_head
  · exact hpart
  · exact hheld y hy x hx

end Heap

namespace Datum

/-- Replaces everything inside `n` containers by nil. -/
def cut : (n : Nat) → Datum → Datum
  | 0, _ => .scalar .nil
  | n + 1, .list type items => .list type (items.map (cut n))
  | n + 1, .map type entries => .map type (entries.map fun e => (e.1, cut n e.2))
  | n + 1, .struct type fields => .struct type (fields.map fun e => (e.1, cut n e.2))
  | _ + 1, d => d

/-- Entries come in the order of the bytes of their keys. -/
def byKey {α : Type} (a b : Scalar × α) : Bool := decide (Text.bytes a.1.text ≤ Text.bytes b.1.text)

mutual

/-- The value without the types of its lists and maps, and with all entries in order. -/
def tidy : Datum → Datum
  | .list _ items => .list .unknown (tidyItems items)
  | .map _ entries => .map .unknown ((tidyEntries entries).mergeSort byKey)
  | .scalar s => .scalar s
  | .struct type fields => .struct type fields
  | .handle id => .handle id
  | .error fault => .error fault
termination_by structural d => d

def tidyItems : List Datum → List Datum
  | [] => []
  | d :: rest => d.tidy :: tidyItems rest
termination_by structural ds => ds

def tidyEntries : List (Scalar × Datum) → List (Scalar × Datum)
  | [] => []
  | (k, d) :: rest => (k, d.tidy) :: tidyEntries rest
termination_by structural es => es

end

theorem tidyItems_eq (items : List Datum) : tidyItems items = items.map tidy := by
  induction items with
  | nil => rfl
  | cons d items ih => simp [tidyItems, ih]

theorem tidyEntries_eq (entries : List (Scalar × Datum)) :
    tidyEntries entries = entries.map fun e => (e.1, e.2.tidy) := by
  induction entries with
  | nil => rfl
  | cons e entries ih => simp [tidyEntries, ih]

end Datum

/-! ## Keys -/

section

variable {α β : Type}

theorem byKey_total (a b : Scalar × α) : (Datum.byKey a b || Datum.byKey b a) = true := by
  simpa [Datum.byKey] using List.le_total _ _

theorem byKey_trans (a b c : Scalar × α) (h : Datum.byKey a b = true) (h' : Datum.byKey b c = true) :
    Datum.byKey a c = true := by
  simp only [Datum.byKey, decide_eq_true_eq] at h h' ⊢
  exact List.le_trans h h'

theorem mergeSort_map {f : Scalar × α → Scalar × β} (hf : ∀ e, (f e).1 = e.1) (entries : List (Scalar × α)) :
    (entries.map f).mergeSort Datum.byKey = (entries.mergeSort Datum.byKey).map f := by
  refine (List.map_mergeSort fun a _ b _ => ?_).symm
  rw [Datum.byKey, Datum.byKey, hf, hf]

theorem same_string (a b : String) : (Scalar.string a).same (.string b) = decide (a = b) := by
  have hzero : ((0.0 : Float) == 0.0) = true := by decide
  simp only [Scalar.same, Scalar.string, hzero, decide_true, Bool.true_and, Bool.and_true]
  rfl

/-- Entries in the order of their keys are in the order of their names. -/
theorem pairwise_byKey {entries : List (Scalar × α)} (hkeys : ∀ k ∈ entries.map Prod.fst, ∃ name, k = .string name)
    (hnodup : (entries.map Prod.fst).Nodup) :
    (entries.mergeSort Datum.byKey).Pairwise fun a b => a.1.text < b.1.text := by
  have hsorted := List.pairwise_mergeSort byKey_trans byKey_total entries
  have hperm := List.mergeSort_perm entries Datum.byKey
  have hnodup' : ((entries.mergeSort Datum.byKey).map Prod.fst).Nodup := (hperm.map _).nodup_iff.mpr hnodup
  refine (hsorted.and (List.pairwise_map.mp hnodup')).imp_of_mem fun {a b} ha hb hab => ?_
  obtain ⟨name, hname⟩ := hkeys a.1 (List.mem_map_of_mem (hperm.mem_iff.mp ha))
  obtain ⟨name', hname'⟩ := hkeys b.1 (List.mem_map_of_mem (hperm.mem_iff.mp hb))
  have hle : Text.bytes a.1.text ≤ Text.bytes b.1.text := of_decide_eq_true hab.1
  have hne : name ≠ name' := by
    rintro rfl
    exact hab.2 (hname.trans hname'.symm)
  rw [hname, hname'] at hle ⊢
  refine lt_of_le_of_ne (not_lt.mp fun hlt => ?_) hne
  exact hle ((Text.bytes_lt_iff _ _).mpr hlt)

/-- Entries with different names make up a map as they are. -/
theorem entries_ofList_strings [Inhabited α] {entries : List (Scalar × α)}
    (hkeys : ∀ k ∈ entries.map Prod.fst, ∃ name, k = .string name) (hnodup : (entries.map Prod.fst).Nodup) :
    (OrderedMap.ofList entries).entries = entries := by
  refine OrderedMap.entries_ofList (fun e he => ?_) ?_
  · obtain ⟨name, hname⟩ := hkeys e.1 (List.mem_map_of_mem he)
    rw [hname, same_string]
    exact ⟨rfl, decide_eq_true rfl⟩
  · refine (List.pairwise_map.mp hnodup).imp_of_mem fun {a b} ha hb hab => ?_
    obtain ⟨name, hname⟩ := hkeys a.1 (List.mem_map_of_mem ha)
    obtain ⟨name', hname'⟩ := hkeys b.1 (List.mem_map_of_mem hb)
    rw [hname, hname'] at hab ⊢
    rw [same_string, decide_eq_true_eq]
    rintro rfl
    exact hab rfl

end

namespace Script

theorem keyText_string (name : String) : keyText (.string name) = name := rfl

/-- A script has the entries of a map in the order of the bytes of their keys. -/
theorem entries_ofList_byKey {α β : Type} {entries : List (Scalar × α)}
    (hkeys : ∀ k ∈ entries.map Prod.fst, ∃ name, k = .string name) (hnodup : (entries.map Prod.fst).Nodup)
    (f : α → β) :
    (Fields.ofList (entries.map fun e => (keyText e.1, f e.2))).entries =
      (entries.mergeSort Datum.byKey).map fun e => (e.1.text, f e.2) := by
  refine Fields.ofList_of_perm ?_ (List.pairwise_map.mpr (pairwise_byKey hkeys hnodup))
  have htext : entries.map (fun e => (keyText e.1, f e.2)) = entries.map fun e => (e.1.text, f e.2) := by
    refine List.map_congr_left fun e he => ?_
    obtain ⟨name, hname⟩ := hkeys e.1 (List.mem_map_of_mem he)
    rw [hname, keyText_string]
    rfl
  rw [htext]
  exact (List.mergeSort_perm entries Datum.byKey).symm.map _

/-! ## There and back again -/

open Heap (Gives)

theorem gives_convertAll {α β : Type} {f : α → Heap → β × Heap} {R : α → Heap → β → Prop} {xs : List α}
    (h : ∀ x ∈ xs, Gives (f x) (R x)) :
    Gives (convertAll f xs) fun heap ys => List.Forall₂ (fun x y => R x heap y) xs ys := by
  induction xs with
  | nil => exact .pure fun _ => .nil
  | cons x xs ih =>
    obtain ⟨hx, hxs⟩ := List.forall_mem_cons.mp h
    refine ⟨fun heap => (hx.grows heap).trans ((ih hxs).grows _), fun heap heap' hext => ?_⟩
    exact .cons (hx.reads heap heap' (((ih hxs).grows _).trans hext)) ((ih hxs).reads _ heap' hext)

/-- What a value reads as, to any depth. -/
def Reads (read : (depth : Nat) → Datum) (h : Heap) (v : Value) : Prop := ∀ depth, h.snapshotTo depth v = read depth

theorem gives_scalar {read : Nat → Datum} {s : Scalar} (h : ∀ depth, read depth = .scalar s) :
    Gives (fun heap => (.scalar s, heap)) (Reads read) :=
  .pure fun heap depth => by rw [h, Heap.snapshotTo]

theorem convertAll_map {α β γ : Type} (f : β → Heap → γ × Heap) (g : α → β) (xs : List α) :
    convertAll f (xs.map g) = convertAll (fun x => f (g x)) xs := by
  induction xs with
  | nil => rfl
  | cons x xs ih =>
    funext heap
    simp only [List.map_cons, convertAll, ih]

/-- An entry of a map, with the value that its tree becomes. -/
def entryOf (left : Nat) (name : String) (t : Tree) (heap : Heap) : (Scalar × Value) × Heap :=
  ((Scalar.string name, (valueOfTo left t heap).1), (valueOfTo left t heap).2)

theorem valueOfTo_map (left : Nat) (entries : List (String × Tree)) (frozen : Bool) (heap : Heap) :
    valueOfTo (left + 1) (.map entries frozen) heap =
      let built := convertAll (fun e => entryOf left e.1 e.2) entries heap
      built.2.newMap .unknown (.ofList built.1) := rfl

/-- Level by level, a plain value comes back as what is left of it. -/
theorem gives_valueOfTo (left : Nat) {h : Heap} {v : Value} (hplain : h.Plain v) :
    Gives (valueOfTo left (treeOfTo h left v)) (Reads fun depth => ((h.snapshotTo depth v).cut left).tidy) := by
  induction left generalizing v with
  | zero => exact gives_scalar fun _ => rfl
  | succ left ih =>
    cases v with
    | scalar s =>
      obtain rfl | ⟨b, rfl⟩ | ⟨x, rfl⟩ | ⟨text, rfl⟩ := hplain.part
      · exact gives_scalar fun depth => by rw [Heap.snapshotTo]; rfl
      · cases b <;> exact gives_scalar fun depth => by rw [Heap.snapshotTo]; rfl
      · exact gives_scalar fun depth => by rw [Heap.snapshotTo]; rfl
      · exact gives_scalar fun depth => by rw [Heap.snapshotTo]; rfl
    | list type ref =>
      have hitems := gives_convertAll fun x hx => ih (hplain.held (.item hx))
      rw [← convertAll_map] at hitems
      refine (hitems.newList .unknown).mono ?_
      rintro heap v ⟨ref', rfl, hreads⟩ (_ | depth)
      · rfl
      · simp only [Heap.snapshotTo, Datum.cut, Datum.tidy, Datum.tidyItems_eq, List.map_map]
        exact congrArg _ (map_eq_of_forall₂ hreads fun _ _ h => (h depth).symm).symm
    | map type ref =>
      obtain ⟨hkeys, hnodup⟩ := hplain.part
      have hperm := List.mergeSort_perm (h.map ref).entries Datum.byKey
      rw [← OrderedMap.map_fst_entries] at hkeys hnodup
      have hentry : ∀ e ∈ (h.map ref).entries.mergeSort Datum.byKey,
          Gives (entryOf left e.1.text (treeOfTo h left e.2)) fun heap p => p.1 = e.1 ∧
            Reads (fun depth => ((h.snapshotTo depth e.2).cut left).tidy) heap p.2 := by
        intro e he
        have hmem := hperm.mem_iff.mp he
        obtain ⟨name, hname⟩ := hkeys e.1 (List.mem_map_of_mem hmem)
        refine ((ih (hplain.held (.entry hmem))).map fun v => (Scalar.string e.1.text, v)).mono ?_
        rintro heap p ⟨v, rfl, hv⟩
        exact ⟨by rw [hname]; rfl, hv⟩
      rw [treeOfTo, entries_ofList_byKey hkeys hnodup, funext (valueOfTo_map _ _ _), convertAll_map]
      refine (((gives_convertAll hentry).map OrderedMap.ofList).newMap .unknown).mono ?_
      rintro heap v ⟨ref', rfl, pairs, hpairs, hreads⟩ (_ | depth)
      · rfl
      · have hnames : pairs.map Prod.fst = ((h.map ref).entries.mergeSort Datum.byKey).map Prod.fst :=
          (map_eq_of_forall₂ hreads fun _ _ h => h.1.symm).symm
        have hentries : (heap.map ref').entries = pairs := by
          rw [hpairs]
          refine entries_ofList_strings ?_ ?_
          · rw [hnames]
            exact fun k hk => hkeys k ((hperm.map Prod.fst).mem_iff.mp hk)
          · rw [hnames]
            exact (hperm.map Prod.fst).nodup_iff.mpr hnodup
        simp only [Heap.snapshotTo, Datum.cut, Datum.tidy, Datum.tidyEntries_eq, List.map_map, hentries]
        refine congrArg _ ?_
        rw [mergeSort_map]
        · refine (map_eq_of_forall₂ hreads fun e p h => ?_).symm
          exact Prod.ext h.1.symm (h.2 depth).symm
        · exact fun _ => rfl
    | struct type ref => exact hplain.part.elim
    | handle id => exact hplain.part.elim
    | error ref => exact hplain.part.elim

/-- Inside `left` containers a value has nothing but nil. -/
def Ends (left : Nat) (h : Heap) (v : Value) : Prop :=
  ∀ depth, (h.snapshotTo depth v).cut left = h.snapshotTo depth v

/-- Whatever comes from a script ends at the last level. -/
theorem ends_valueOfTo (left : Nat) (t : Tree) : Gives (valueOfTo left t) (Ends left) := by
  induction left generalizing t with
  | zero => exact .pure fun heap depth => by rw [Value.nil, Heap.snapshotTo]; rfl
  | succ left ih =>
    have hscalar (s : Scalar) : Gives (fun heap => (Value.scalar s, heap)) (Ends (left + 1)) :=
      .pure fun heap depth => by rw [Heap.snapshotTo]; rfl
    cases t with
    | array items frozen =>
      refine ((gives_convertAll fun x _ => ih x).newList .unknown).mono ?_
      rintro heap v ⟨ref, rfl, hreads⟩ (_ | depth)
      · rfl
      · simp only [Heap.snapshotTo, Datum.cut, List.map_map]
        exact congrArg _ (List.map_congr_left fun v hv => forall_of_forall₂ hreads v hv depth)
    | map entries frozen =>
      have hentry (e : String × Tree) (_ : e ∈ entries) :
          Gives (entryOf left e.1 e.2) fun heap p => p.1.same p.1 ∧ Ends left heap p.2 := by
        refine ((ih e.2).map fun v => (Scalar.string e.1, v)).mono ?_
        rintro heap p ⟨v, rfl, hv⟩
        exact ⟨(same_string _ _).trans (decide_eq_true rfl), hv⟩
      rw [funext (valueOfTo_map _ _ _)]
      refine (((gives_convertAll hentry).map OrderedMap.ofList).newMap .unknown).mono ?_
      rintro heap v ⟨ref, rfl, pairs, hpairs, hreads⟩ (_ | depth)
      · rfl
      · have hends : ∀ e ∈ (OrderedMap.ofList pairs).entries, Ends left heap e.2 :=
          OrderedMap.forall_ofList (forall_of_forall₂ hreads)
        simp only [Heap.snapshotTo, Datum.cut, List.map_map, hpairs]
        exact congrArg _ (List.map_congr_left fun e he => Prod.ext rfl (hends e he depth))
    | error value =>
      exact ⟨fun heap => .newFault _ _, fun heap heap' _ depth => by cases depth <;> rfl⟩
    | _ => exact hscalar _

/-- What nests no deeper than `n` containers has nothing inside more of them. -/
theorem cut_snapshotTo {h : Heap} {n : Nat} {v : Value} (hnests : h.Nests n v) (depth : Nat) :
    (h.snapshotTo depth v).cut (n + 1) = h.snapshotTo depth v := by
  induction depth generalizing n v with
  | zero => cases v <;> rfl
  | succ depth ih =>
    cases v with
    | scalar s => rfl
    | handle id => rfl
    | error ref => rfl
    | list type ref =>
      cases n with
      | zero => exact hnests.elim
      | succ n =>
        simp only [Heap.snapshotTo, Datum.cut, List.map_map]
        exact congrArg _ (List.map_congr_left fun x hx => ih (hnests x (.item hx)))
    | map type ref =>
      cases n with
      | zero => exact hnests.elim
      | succ n =>
        simp only [Heap.snapshotTo, Datum.cut, List.map_map]
        exact congrArg _ (List.map_congr_left fun e he => Prod.ext rfl (ih (hnests e.2 (.entry he))))
    | struct type ref =>
      cases n with
      | zero => exact hnests.elim
      | succ n =>
        simp only [Heap.snapshotTo, Datum.cut, List.map_map]
        exact congrArg _ (List.map_congr_left fun e he => Prod.ext rfl (ih (hnests e.2 (.field he))))

/-- Values go into a script and come back. A plain value comes back without its types and with its entries in the order
of the bytes of their keys, all the way down if no more than 32 containers are inside one another; otherwise what lies
deeper is nil. Whatever the value, nothing that comes back lies deeper, and the objects from before are still there. -/
theorem valueOf_treeOf (h h₀ : Heap) (v : Value) :
    ∃ v' h', valueOf (treeOf h v) h₀ = (v', h') ∧ h₀.Extends h' ∧
      (h.Plain v → h.Nests maxDepth v → ∀ depth, h'.snapshotTo depth v' = (h.snapshotTo depth v).tidy) ∧
      (h.Plain v → ∀ depth, h'.snapshotTo depth v' = ((h.snapshotTo depth v).cut (maxDepth + 1)).tidy) ∧
      ∀ depth, (h'.snapshotTo depth v').cut (maxDepth + 1) = h'.snapshotTo depth v' := by
  have hends := ends_valueOfTo (maxDepth + 1) (treeOf h v)
  have hplain (hplain : h.Plain v) := (gives_valueOfTo (maxDepth + 1) hplain).reads h₀ _ (.refl _)
  refine ⟨_, _, rfl, hends.grows h₀, fun hp hnests depth => ?_, hplain, hends.reads h₀ _ (.refl _)⟩
  rw [← cut_snapshotTo hnests depth]
  exact hplain hp depth

def sampleHeap : Heap where
  lists := #[[.number 1.5, .map .unknown 0], [.list "loop" 1]]
  maps := #[.ofList [(.string "b", .string "x"), (.string "a", .nil)]]

theorem entries_sampleHeap :
    (sampleHeap.map 0).entries = [(.string "b", .string "x"), (.string "a", .nil)] := rfl

theorem plain_sample : sampleHeap.Plain (.list "list" 0) := by
  have hscalar {s : Scalar} (hs : sampleHeap.PlainPart (.scalar s)) : sampleHeap.Plain (.scalar s) :=
    Heap.plain_of_held hs fun _ hx => by cases hx
  refine Heap.plain_of_held trivial fun x hx => ?_
  rcases hx with ⟨hx⟩
  obtain rfl | rfl : x = .number 1.5 ∨ x = .map .unknown 0 := by simpa [sampleHeap, Heap.list] using hx
  · exact hscalar (.inr (.inr (.inl ⟨_, rfl⟩)))
  · refine Heap.plain_of_held ⟨?_, ?_⟩ fun y hy => ?_
    · rw [← OrderedMap.map_fst_entries, entries_sampleHeap]
      simp
    · decide
    · rcases hy with _ | ⟨hy⟩
      rename_i e
      obtain rfl | rfl : e = (.string "b", .string "x") ∨ e = (.string "a", .nil) := by
        simpa [entries_sampleHeap] using hy
      · exact hscalar (.inr (.inr (.inr ⟨_, rfl⟩)))
      · exact hscalar (.inl rfl)

theorem nests_sample : sampleHeap.Nests maxDepth (.list "list" 0) := by
  rintro x ⟨hx⟩
  obtain rfl | rfl : x = .number 1.5 ∨ x = .map .unknown 0 := by simpa [sampleHeap, Heap.list] using hx
  · trivial
  · rintro y (_ | ⟨hy⟩)
    rename_i e
    obtain rfl | rfl : e = (.string "b", .string "x") ∨ e = (.string "a", .nil) := by
      simpa [entries_sampleHeap] using hy
    · trivial
    · trivial

theorem plain_loop : sampleHeap.Plain (.list "loop" 1) := by
  intro x hx
  obtain rfl : x = .list "loop" 1 := by
    induction hx with
    | refl => rfl
    | tail _ hstep ih =>
      subst ih
      rcases hstep with ⟨hmem⟩
      simpa [sampleHeap, Heap.list] using hmem
  trivial

theorem valueOf_treeOf_sample :
    (∃ v' h', valueOf (treeOf sampleHeap (.list "list" 0)) {} = (v', h') ∧
      h'.snapshotTo 2 v' = .list .unknown [.scalar (.number 1.5),
        .map .unknown [(.string "a", .scalar .nil), (.string "b", .scalar (.string "x"))]]) ∧
    ∃ v' h', valueOf (treeOf sampleHeap (.list "loop" 1)) {} = (v', h') ∧
      ∀ depth, h'.snapshotTo depth v' = ((sampleHeap.snapshotTo depth (.list "loop" 1)).cut 33).tidy := by
  obtain ⟨v, h, hback, -, hsame, -, -⟩ := valueOf_treeOf sampleHeap {} (.list "list" 0)
  obtain ⟨v', h', hback', -, -, hcut, -⟩ := valueOf_treeOf sampleHeap {} (.list "loop" 1)
  refine ⟨⟨v, h, hback, (hsame plain_sample nests_sample 2).trans ?_⟩, v', h', hback', hcut plain_loop⟩
  have hfirst : Text.bytes "a" < Text.bytes "b" := (Text.bytes_lt_iff _ _).mpr (by decide)
  have horder : ¬ Datum.byKey (Scalar.string "b", Datum.scalar (.string "x")) (.string "a", .scalar .nil) = true := by
    rw [Datum.byKey, decide_eq_true_eq]
    exact fun hle => hle hfirst
  have hsort : [(Scalar.string "b", Datum.scalar (.string "x")), (.string "a", .scalar .nil)].mergeSort Datum.byKey =
      [(.string "a", .scalar .nil), (.string "b", .scalar (.string "x"))] := by
    simp [List.mergeSort, List.MergeSort.Internal.splitInTwo, horder]
  exact congrArg (fun entries => Datum.list .unknown [.scalar (.number 1.5), .map .unknown entries]) hsort

end Script
end TileMind
