import Mathlib
import TileMind.Proofs.Value.History
import TileMind.Proofs.Value.Lookup

/-!
# TileMind.Proofs.Value.Containment

Objects that hold each other. An object that is stored in another one is shared, so nothing but the order in
which objects are stored keeps one of them from holding itself.

* `Heap.Extends`, `Heap.Gives`: heaps that grow, and what is built in them.
* `Heap.Ends`: whoever follows what an object holds comes to an end.
* `Heap.snapshotTo_of_ends`: such a value is read in full.
* `Heap.circular_of_render?`, `Heap.circular_of_deepCopy?`: a value that cannot be shown or copied contains itself.
* `Heap.Tidy.update`: no object comes to hold itself if none that it is stored in is reached from it.
* `Heap.Tidy`: objects hold each other in order, and none of them holds an argument map. Building values and
  storing in argument maps keep that.
* `Heap.Grown`: what host code may do to a heap.
-/

namespace TileMind

/-! ## Values of structs and cells -/

namespace Fields

variable {α : Type} {P : α → Prop}

theorem forall_insertInto {fields : List (String × α)} (h : ∀ e ∈ fields, P e.2) {v : α} (hv : P v) (name : String) :
    ∀ e ∈ insertInto name v fields, P e.2 := by
  induction fields with
  | nil => exact List.forall_mem_singleton.mpr hv
  | cons e fields ih =>
    obtain ⟨he, hfields⟩ := List.forall_mem_cons.mp h
    unfold insertInto
    split
    · exact List.forall_mem_cons.mpr ⟨hv, h⟩
    · split
      · exact List.forall_mem_cons.mpr ⟨hv, hfields⟩
      · exact List.forall_mem_cons.mpr ⟨he, ih hfields⟩

theorem forall_ofPairs {pairs : List (String × α)} (h : ∀ e ∈ pairs, P e.2) :
    ∀ e ∈ (ofList pairs).entries, P e.2 := by
  unfold ofList
  exact List.foldlRecOn (motive := fun f : Fields α => ∀ e ∈ f.entries, P e.2) pairs _ (by simp)
    fun f hf e he => forall_insertInto hf (h e he) e.1

end Fields

namespace Cells

variable {α : Type} {P : α → Prop}

theorem forall_replace {i : Int} {v : α} {entries : List (Int × α)} (h : ∀ e ∈ entries, P e.2) (hv : P v) :
    ∀ e ∈ replace i v entries, P e.2 := by
  induction entries with
  | nil => simp [replace]
  | cons e entries ih =>
    obtain ⟨he, hentries⟩ := List.forall_mem_cons.mp h
    rw [replace]
    split
    · exact List.forall_mem_cons.mpr ⟨hv, hentries⟩
    · exact List.forall_mem_cons.mpr ⟨he, ih hentries⟩

theorem forall_set {c : Cells α} (h : ∀ e ∈ c.entries, P e.2) {v : α} (hv : P v) (i : Int) :
    ∀ e ∈ (c.set i v).entries, P e.2 := by
  unfold set
  split
  · exact forall_replace h hv
  · exact List.forall_mem_append.mpr ⟨h, List.forall_mem_singleton.mpr hv⟩

theorem forall_modify {c : Cells α} (h : ∀ e ∈ c.entries, P e.2) {f : α → α} (hf : ∀ a, P a → P (f a))
    (i : Int) : ∀ e ∈ (c.modify i f).entries, P e.2 := by
  unfold modify
  refine List.forall_mem_map.mpr fun e he => ?_
  split
  · exact hf _ (h e he)
  · exact h e he

theorem of_get? {c : Cells α} (h : ∀ e ∈ c.entries, P e.2) {i : Int} {v : α} (hv : c.get? i = some v) : P v :=
  h (i, v) (mem_of_lookup_eq_some hv)

end Cells

/-! ## Heaps that grow -/

namespace Heap

/-- The heap `h'` has all objects of `h`, and perhaps more. -/
structure Extends (h h' : Heap) : Prop where
  lists : h.lists.toList <+: h'.lists.toList
  maps : h.maps.toList <+: h'.maps.toList
  structs : h.structs.toList <+: h'.structs.toList
  faults : h.faults.toList <+: h'.faults.toList

namespace Extends

variable {h h' h'' : Heap}

theorem refl (h : Heap) : h.Extends h :=
  ⟨List.prefix_rfl, List.prefix_rfl, List.prefix_rfl, List.prefix_rfl⟩

theorem trans (a : h.Extends h') (b : h'.Extends h'') : h.Extends h'' :=
  ⟨a.lists.trans b.lists, a.maps.trans b.maps, a.structs.trans b.structs, a.faults.trans b.faults⟩

theorem newList (h : Heap) (type : TypeId) (items : List Value) : h.Extends (h.newList type items).2 := by
  refine ⟨?_, List.prefix_rfl, List.prefix_rfl, List.prefix_rfl⟩
  simp [Heap.newList]

theorem newMap (h : Heap) (type : TypeId) (m : OrderedMap Value) : h.Extends (h.newMap type m).2 := by
  refine ⟨List.prefix_rfl, ?_, List.prefix_rfl, List.prefix_rfl⟩
  simp [Heap.newMap]

theorem newStruct (h : Heap) (type : TypeId) (f : Fields Value) : h.Extends (h.newStruct type f).2 := by
  refine ⟨List.prefix_rfl, List.prefix_rfl, ?_, List.prefix_rfl⟩
  simp [Heap.newStruct]

theorem newFault (h : Heap) (f : Fault) : h.Extends (h.newFault f).2 := by
  refine ⟨List.prefix_rfl, List.prefix_rfl, List.prefix_rfl, ?_⟩
  simp [Heap.newFault]

theorem getD_of_prefix {α : Type} {a b : Array α} (h : a.toList <+: b.toList) {i : Nat} (hi : i < a.size) (d : α) :
    b.getD i d = a.getD i d := by
  obtain ⟨more, hmore⟩ := h
  have hb : b = a ++ more.toArray := by
    apply Array.toList_inj.mp
    rw [Array.toList_append, ← hmore]
  simp [hb, Array.getElem?_append_left hi]

theorem list_eq (a : h.Extends h') {ref : Nat} (href : ref < h.lists.size) : h'.list ref = h.list ref :=
  getD_of_prefix a.lists href _

theorem map_eq (a : h.Extends h') {ref : Nat} (href : ref < h.maps.size) : h'.map ref = h.map ref :=
  getD_of_prefix a.maps href _

theorem struct_eq (a : h.Extends h') {ref : Nat} (href : ref < h.structs.size) : h'.struct ref = h.struct ref :=
  getD_of_prefix a.structs href _

end Extends

/-- What `build` makes only adds to a heap, and it is `R` in every heap that has what was added. -/
structure Gives {β : Type} (build : Heap → β × Heap) (R : Heap → β → Prop) : Prop where
  grows : ∀ h : Heap, h.Extends (build h).2
  reads : ∀ h h' : Heap, (build h).2.Extends h' → R h' (build h).1

namespace Gives

variable {β : Type} {build : Heap → β × Heap} {R R' : Heap → β → Prop}

theorem pure {b : β} (h : ∀ heap, R heap b) : Gives (fun heap => (b, heap)) R :=
  ⟨Extends.refl, fun _ heap _ => h heap⟩

theorem mono (h : Gives build R) (himp : ∀ heap b, R heap b → R' heap b) : Gives build R' :=
  ⟨h.grows, fun heap heap' hext => himp _ _ (h.reads heap heap' hext)⟩

theorem map {γ : Type} (h : Gives build R) (f : β → γ) :
    Gives (fun heap => (f (build heap).1, (build heap).2)) fun heap c => ∃ b, c = f b ∧ R heap b :=
  ⟨h.grows, fun heap heap' hext => ⟨_, rfl, h.reads heap heap' hext⟩⟩

theorem newList {build : Heap → List Value × Heap} {R : Heap → List Value → Prop} (h : Gives build R)
    (type : TypeId) : Gives (fun heap => (build heap).2.newList type (build heap).1)
      fun heap v => ∃ ref, v = .list type ref ∧ R heap (heap.list ref) := by
  refine ⟨fun heap => (h.grows heap).trans (.newList _ _ _), fun heap heap' hext => ⟨_, rfl, ?_⟩⟩
  rw [hext.list_eq (by simp [Heap.newList])]
  have hlist : ((build heap).2.newList type (build heap).1).2.list (build heap).2.lists.size = (build heap).1 := by
    simp [Heap.newList, Heap.list]
  rw [hlist]
  exact h.reads heap heap' ((Extends.newList _ _ _).trans hext)

theorem newMap {build : Heap → OrderedMap Value × Heap} {R : Heap → OrderedMap Value → Prop} (h : Gives build R)
    (type : TypeId) : Gives (fun heap => (build heap).2.newMap type (build heap).1)
      fun heap v => ∃ ref, v = .map type ref ∧ R heap (heap.map ref) := by
  refine ⟨fun heap => (h.grows heap).trans (.newMap _ _ _), fun heap heap' hext => ⟨_, rfl, ?_⟩⟩
  rw [hext.map_eq (by simp [Heap.newMap])]
  have hmap : ((build heap).2.newMap type (build heap).1).2.map (build heap).2.maps.size = (build heap).1 := by
    simp [Heap.newMap, Heap.map]
  rw [hmap]
  exact h.reads heap heap' ((Extends.newMap _ _ _).trans hext)

end Gives

end Heap

/-! ## Objects that hold values -/

/-- An object that holds values. -/
inductive Ref where
  | list (n : Nat)
  | map (n : Nat)
  | struct (n : Nat)
deriving DecidableEq, Repr

/-- The object that a value refers to. -/
def Value.ref? : Value → Option Ref
  | .list _ n => some (.list n)
  | .map _ n => some (.map n)
  | .struct _ n => some (.struct n)
  | .scalar _ | .handle _ | .error _ => none

namespace Heap

/-- What stands in a container. -/
inductive Holds (h : Heap) : Value → Value → Prop where
  | item {type : TypeId} {ref : Nat} {x : Value} : x ∈ h.list ref → Holds h (.list type ref) x
  | entry {type : TypeId} {ref : Nat} {e : Scalar × Value} : e ∈ (h.map ref).entries → Holds h (.map type ref) e.2
  | field {type : TypeId} {ref : Nat} {e : String × Value} :
      e ∈ (h.struct ref).entries → Holds h (.struct type ref) e.2

/-- No more than `n` containers are inside one another. -/
def Nests (h : Heap) : (n : Nat) → Value → Prop
  | _, .scalar _ | _, .handle _ | _, .error _ => True
  | 0, _ => False
  | n + 1, v => ∀ x, h.Holds v x → Nests h n x

def parts (h : Heap) : Ref → List Value
  | .list n => h.list n
  | .map n => (h.map n).table.map Prod.snd
  | .struct n => (h.struct n).entries.map Prod.snd

def Has (h : Heap) : Ref → Prop
  | .list n => n < h.lists.size
  | .map n => n < h.maps.size
  | .struct n => n < h.structs.size

def Contains (h : Heap) (x y : Ref) : Prop := ∃ v ∈ h.parts x, v.ref? = some y

/-- The object `y` is `x` or is held by it, directly or not. -/
def Reaches (h : Heap) : Ref → Ref → Prop := Relation.ReflTransGen h.Contains

/-- The objects that are reached from a value. -/
def Under (h : Heap) (v : Value) (y : Ref) : Prop := ∃ x, v.ref? = some x ∧ h.Reaches x y

/-- No path of objects that goes out from `x` goes on forever. -/
def Ends (h : Heap) (x : Ref) : Prop := Acc (fun y z => h.Contains z y) x

section

variable {h h' : Heap} {x y : Ref} {v w : Value}

theorem parts_of_not_has (hx : ¬ h.Has x) : h.parts x = [] := by
  cases x <;> simp only [Has, Nat.not_lt] at hx <;> simp [parts, list, map, struct, hx]

theorem mem_parts_map {n : Nat} {k : Scalar} (hv : (h.map n).get? k = some v) : v ∈ h.parts (.map n) := by
  obtain ⟨e, he, rfl⟩ := OrderedMap.mem_table_of_get? hv
  exact List.mem_map_of_mem he

theorem mem_parts_struct {n : Nat} {name : String} (hv : (h.struct n).get? name = some v) :
    v ∈ h.parts (.struct n) :=
  List.mem_map_of_mem (mem_of_lookup_eq_some hv)

theorem Ends.not_contains (hx : h.Ends x) : ¬ Relation.TransGen h.Contains x x := by
  intro hloop
  have hswap := Relation.transGen_swap.mpr hloop
  have hacc := Acc.transGen hx
  clear hx hloop
  induction hacc with
  | intro x _ ih => exact ih x hswap hswap

theorem Ends.contains (hx : h.Ends x) (hxy : h.Contains x y) : h.Ends y := hx.inv hxy

theorem Ends.not_reaches (hx : h.Ends x) (hxy : h.Contains x y) : ¬ h.Reaches y x := fun hyx =>
  hx.not_contains (.head' hxy hyx)

/-! ## Reading values -/

/-- The objects of a heap, of which there are as many as its size. -/
def objects (h : Heap) : Finset Ref :=
  (Finset.range h.lists.size).image .list ∪ (Finset.range h.maps.size).image .map ∪
    (Finset.range h.structs.size).image .struct

theorem mem_objects : x ∈ h.objects ↔ h.Has x := by
  cases x <;> simp [objects, Has]

theorem card_objects_le (h : Heap) : h.objects.card ≤ h.size := by
  have himage (f : Nat → Ref) (n : Nat) : ((Finset.range n).image f).card ≤ n := by
    simpa using Finset.card_image_le (f := f) (s := Finset.range n)
  refine (Finset.card_union_le _ _).trans (Nat.add_le_add ?_ (himage _ _))
  exact (Finset.card_union_le _ _).trans (Nat.add_le_add (himage _ _) (himage _ _))

/-- What stands in a container is held by its object, or else it is what stands for a value that is lost. -/
theorem Holds.parts (hw : h.Holds v w) : ∃ x, v.ref? = some x ∧ (w = default ∨ w ∈ h.parts x) := by
  cases hw with
  | item hx => exact ⟨_, rfl, .inr hx⟩
  | entry he => exact ⟨_, rfl, OrderedMap.mem_table_of_mem_entries he⟩
  | field he => exact ⟨_, rfl, .inr (List.mem_map_of_mem he)⟩

theorem nests_of_ref? (hv : v.ref? = none) (n : Nat) : h.Nests n v := by
  cases v <;> first | (cases hv; done) | simp [Nests]

theorem nests_succ {n : Nat} (h' : ∀ w, h.Holds v w → h.Nests n w) : h.Nests (n + 1) v := by
  cases v <;> first | exact h' | trivial

theorem Nests.held {n : Nat} (hv : h.Nests n v) (hw : h.Holds v w) : ∃ k, n = k + 1 ∧ h.Nests k w := by
  cases n with
  | zero => cases hw <;> exact hv.elim
  | succ k => exact ⟨k, rfl, by cases hw with
    | item hx => exact hv _ (.item hx)
    | entry he => exact hv _ (.entry he)
    | field he => exact hv _ (.field he)⟩

/-- If what a value refers to ends, no more of its containers are inside one another than there are objects on the
way. -/
theorem nests_of_card {n : Nat} (s : Finset Ref) (hends : ∀ x, v.ref? = some x → h.Ends x)
    (hs : ∀ x y, v.ref? = some x → h.Reaches x y → h.Has y → y ∈ s) (hn : s.card < n) : h.Nests n v := by
  induction n generalizing s v with
  | zero => omega
  | succ n ih =>
    refine nests_succ fun w hw => ?_
    obtain ⟨x, hx, rfl | hw⟩ := hw.parts
    · exact nests_of_ref? rfl n
    · have hhas : h.Has x := by
        by_contra hno
        rw [parts_of_not_has hno] at hw
        cases hw
      -- There is one object less on the way from what is held.
      have hcard : (s.erase x).card + 1 = s.card := Finset.card_erase_add_one (hs x x hx .refl hhas)
      have hheld (y : Ref) (hy : w.ref? = some y) : h.Contains x y := ⟨w, hw, hy⟩
      refine ih (s.erase x) (fun y hy => (hends x hx).contains (hheld y hy)) ?_ (by omega)
      intro y z hy hyz hz
      refine Finset.mem_erase.mpr ⟨?_, hs x z hx (.head (hheld y hy) hyz) hz⟩
      rintro rfl
      exact (hends z hx).not_reaches (hheld y hy) hyz

theorem nests_of_ends (hends : ∀ x, v.ref? = some x → h.Ends x) : h.Nests (h.size + 1) v :=
  nests_of_card h.objects hends (fun _ _ _ _ hy => mem_objects.mpr hy) (Nat.lt_succ_of_le h.card_objects_le)

/-- More depth than there are containers inside one another reads the same. -/
theorem Nests.snapshotTo {m n : Nat} (hv : h.Nests n v) (hm : n ≤ m) : h.snapshotTo m v = h.snapshotTo n v := by
  induction n generalizing v m with
  | zero => cases v <;> first | exact hv.elim | simp [Heap.snapshotTo]
  | succ n ih =>
    obtain ⟨m, rfl⟩ : ∃ k, m = k + 1 := ⟨m - 1, by omega⟩
    have hheld (w : Value) (hw : h.Holds v w) : h.snapshotTo m w = h.snapshotTo n w := by
      obtain ⟨k, hk, hw⟩ := hv.held hw
      exact ih (by rwa [Nat.succ.inj hk]) (by omega)
    cases v with
    | list t ref =>
      rw [Heap.snapshotTo, Heap.snapshotTo, List.map_congr_left fun w hw => hheld w (.item hw)]
    | map t ref =>
      rw [Heap.snapshotTo, Heap.snapshotTo, List.map_congr_left fun e he => ?_]
      rw [hheld e.2 (.entry he)]
    | struct t ref =>
      rw [Heap.snapshotTo, Heap.snapshotTo, List.map_congr_left fun e he => ?_]
      rw [hheld e.2 (.field he)]
    | _ => simp [Heap.snapshotTo]

/-- A value is read in full if what it refers to ends: more depth gives the same. -/
theorem snapshotTo_of_ends (hends : ∀ x, v.ref? = some x → h.Ends x) {n : Nat} (hn : h.size < n) :
    h.snapshotTo n v = h.snapshot v := (nests_of_ends hends).snapshotTo hn

/-! ## Showing and copying -/

theorem exists_mapM {α β : Type} {f : α → Option β} (xs : List α) (h : ∀ x ∈ xs, ∃ y, f x = some y) :
    ∃ ys, xs.mapM f = some ys := by
  induction xs with
  | nil => exact ⟨[], rfl⟩
  | cons x xs ih =>
    obtain ⟨⟨y, hy⟩, hxs⟩ := List.forall_mem_cons.mp h
    obtain ⟨ys, hys⟩ := ih hxs
    exact ⟨y :: ys, by simp [hy, hys]⟩

theorem Nests.renderTo {n : Nat} (hv : h.Nests n v) : ∃ text, h.renderTo n v = some text := by
  induction n generalizing v with
  | zero => cases v <;> first | exact hv.elim | exact ⟨_, by rw [Heap.renderTo]⟩
  | succ n ih =>
    have hheld (w : Value) (hw : h.Holds v w) : ∃ text, h.renderTo n w = some text := by
      obtain ⟨k, hk, hw⟩ := hv.held hw
      exact ih (by rwa [Nat.succ.inj hk])
    cases v with
    | list t ref =>
      obtain ⟨items, hitems⟩ := exists_mapM _ fun w hw => hheld w (.item hw)
      exact ⟨_, by rw [Heap.renderTo, hitems]; rfl⟩
    | map t ref =>
      obtain ⟨entries, hentries⟩ := exists_mapM (f := fun e => (h.renderTo n e.2).map fun text =>
          e.1.render ++ ": " ++ text) (h.map ref).entries fun e he => by
        obtain ⟨text, htext⟩ := hheld e.2 (.entry he)
        exact ⟨_, by rw [htext]; rfl⟩
      exact ⟨_, by rw [Heap.renderTo, hentries]; rfl⟩
    | _ => exact ⟨_, by rw [Heap.renderTo]⟩

theorem exists_copyAll {κ : Type} (copy : Value → Heap → Option (Value × Heap)) (pairs : List (κ × Value))
    (hcopy : ∀ e ∈ pairs, ∀ h, ∃ c, copy e.2 h = some c) (h : Heap) : ∃ copies, copyAll copy pairs h = some copies := by
  induction pairs generalizing h with
  | nil => exact ⟨_, rfl⟩
  | cons e pairs ih =>
    obtain ⟨hfirst, hrest⟩ := List.forall_mem_cons.mp hcopy
    obtain ⟨⟨c, h₁⟩, hc⟩ := hfirst h
    obtain ⟨copies, hcopies⟩ := ih hrest h₁
    exact ⟨((e.1, c) :: copies.1, copies.2), by simp [copyAll, hc, hcopies]⟩

theorem Nests.deepCopyTo {n : Nat} (hv : h.Nests n v) (g : Heap) : ∃ c, h.deepCopyTo n v g = some c := by
  induction n generalizing v g with
  | zero => cases v <;> first | exact hv.elim | exact ⟨_, by rw [Heap.deepCopyTo]⟩
  | succ n ih =>
    have hheld (w : Value) (hw : h.Holds v w) (g : Heap) : ∃ c, h.deepCopyTo n w g = some c := by
      obtain ⟨k, hk, hw⟩ := hv.held hw
      exact ih (by rwa [Nat.succ.inj hk]) g
    cases v with
    | list t ref =>
      obtain ⟨copies, hcopies⟩ := exists_copyAll (h.deepCopyTo n)
        ((h.list ref).map fun v => ((), v)) (List.forall_mem_map.mpr fun w hw => hheld w (.item hw)) g
      exact ⟨_, by rw [Heap.deepCopyTo, hcopies]; rfl⟩
    | map t ref =>
      obtain ⟨copies, hcopies⟩ := exists_copyAll (h.deepCopyTo n) (h.map ref).entries
        (fun e he => hheld e.2 (.entry he)) g
      exact ⟨_, by rw [Heap.deepCopyTo, hcopies]; rfl⟩
    | struct t ref =>
      obtain ⟨copies, hcopies⟩ := exists_copyAll (h.deepCopyTo n) (h.struct ref).entries
        (fun e he => hheld e.2 (.field he)) g
      exact ⟨_, by rw [Heap.deepCopyTo, hcopies]; rfl⟩
    | _ => exact ⟨_, by rw [Heap.deepCopyTo]⟩

/-- A value that contains itself, or something that does. -/
def Circular (h : Heap) (v : Value) : Prop := ∃ x, h.Under v x ∧ Relation.TransGen h.Contains x x

/-- There are finitely many objects, so a path that never comes back to one of them ends. -/
theorem ends_of_not_contains {n : Nat} (s : Finset Ref) (hs : ∀ y, h.Reaches x y → h.Has y → y ∈ s)
    (hno : ∀ y, h.Reaches x y → ¬ Relation.TransGen h.Contains y y) (hn : s.card < n) : h.Ends x := by
  induction n generalizing s x with
  | zero => omega
  | succ n ih =>
    refine .intro x fun y hxy => ?_
    obtain ⟨w, hw, -⟩ := id hxy
    have hhas : h.Has x := by
      by_contra hnot
      rw [parts_of_not_has hnot] at hw
      cases hw
    have hcard : (s.erase x).card + 1 = s.card := Finset.card_erase_add_one (hs x .refl hhas)
    refine ih (s.erase x) (fun z hyz hz => Finset.mem_erase.mpr ⟨?_, hs z (.head hxy hyz) hz⟩)
      (fun z hyz => hno z (.head hxy hyz)) (by omega)
    rintro rfl
    exact hno z .refl (.head' hxy hyz)

theorem ends_of_not_circular (hv : ¬ h.Circular v) (hx : v.ref? = some x) : h.Ends x :=
  ends_of_not_contains h.objects (fun _ _ hy => mem_objects.mpr hy) (fun y hxy hloop => hv ⟨y, ⟨x, hx, hxy⟩, hloop⟩)
    (Nat.lt_succ_of_le h.card_objects_le)

theorem not_circular_iff : ¬ h.Circular v ↔ ∀ x, v.ref? = some x → h.Ends x := by
  refine ⟨fun hv x => ends_of_not_circular hv, ?_⟩
  rintro hends ⟨y, ⟨x, hx, hxy⟩, hloop⟩
  have hy : h.Ends y := by
    clear hloop
    induction hxy with
    | refl => exact hends x hx
    | tail _ hzy ih => exact ih.contains hzy
  exact hy.not_contains hloop

theorem nests_of_not_circular (hv : ¬ h.Circular v) : h.Nests (h.size + 1) v :=
  nests_of_ends (not_circular_iff.mp hv)

/-- Only a value that contains itself cannot be shown. -/
theorem circular_of_render? (hv : h.render? v = none) : h.Circular v := by
  by_contra hno
  obtain ⟨text, htext⟩ := (nests_of_not_circular hno).renderTo
  rw [render?, htext] at hv
  cases hv

/-- Only a value that contains itself cannot be copied. -/
theorem circular_of_deepCopy? (hv : deepCopy? v h = none) : h.Circular v := by
  by_contra hno
  obtain ⟨c, hc⟩ := (nests_of_not_circular hno).deepCopyTo h
  rw [deepCopy?, hc] at hv
  cases hv

end

/-! ## Objects in order -/

/-- A value that may be held anywhere: what it refers to is there, and is no argument map. -/
def Common (h : Heap) (args : Set Nat) (v : Value) : Prop :=
  ∀ x, v.ref? = some x → h.Has x ∧ ∀ n ∈ args, x ≠ .map n

/-- Every object ends, and what it holds may be held anywhere. `args` are the maps that were made for the
arguments of calls; they are known to those calls alone. -/
structure Tidy (h : Heap) (args : Set Nat) : Prop where
  parts : ∀ x, ∀ v ∈ h.parts x, h.Common args v
  ends : ∀ x, h.Ends x
  known : ∀ n ∈ args, h.Has (.map n)

/-- A later heap has all objects of an earlier one. Of its argument maps some may be new. -/
structure Later (h : Heap) (args : Set Nat) (h' : Heap) (args' : Set Nat) : Prop where
  has : ∀ x, h.Has x → h'.Has x
  new : ∀ n ∈ args', n ∈ args ∨ ¬ h.Has (.map n)
  kept : args ⊆ args'

section

variable {h h' h'' : Heap} {args args' args'' : Set Nat} {x y : Ref} {v : Value} {vs : List Value}

theorem Later.refl (h : Heap) (args : Set Nat) : h.Later args h args :=
  ⟨fun _ hx => hx, fun _ hn => .inl hn, subset_rfl⟩

theorem Later.trans (a : h.Later args h' args') (b : h'.Later args' h'' args'') : h.Later args h'' args'' := by
  refine ⟨fun x hx => b.has x (a.has x hx), fun n hn => ?_, a.kept.trans b.kept⟩
  rcases b.new n hn with hn | hn
  · exact a.new n hn
  · exact .inr fun hhas => hn (a.has _ hhas)

theorem Later.of_has (hhas : ∀ x, h.Has x → h'.Has x) : h.Later args h' args :=
  ⟨hhas, fun _ hn => .inl hn, subset_rfl⟩

theorem common_of_ref? (hv : v.ref? = none) : h.Common args v := by
  intro x hx
  rw [hv] at hx
  cases hx

theorem Common.later (hv : h.Common args v) (hl : h.Later args h' args') : h'.Common args' v := by
  intro x hx
  obtain ⟨hhas, hargs⟩ := hv x hx
  refine ⟨hl.has x hhas, ?_⟩
  rintro n hn rfl
  rcases hl.new n hn with hn | hn
  · exact hargs n hn rfl
  · exact hn hhas

theorem Common.mono (hv : h.Common args v) (hsub : args' ⊆ args) : h.Common args' v :=
  fun x hx => ⟨(hv x hx).1, fun n hn => (hv x hx).2 n (hsub hn)⟩

/-- What no value that may be held refers to is reached from no such value. -/
theorem Tidy.not_reaches (ht : h.Tidy args) (hx : ∀ v, h.Common args v → v.ref? ≠ some x)
    (hv : h.Common args v) (hy : v.ref? = some y) : ¬ h.Reaches y x := by
  intro hyx
  rcases Relation.ReflTransGen.cases_tail hyx with rfl | ⟨z, -, w, hw, hwx⟩
  · exact hx v hv hy
  · exact hx w (ht.parts z w hw) hwx

/-- An object comes to hold other values, from which it is not reached. -/
theorem Tidy.update (ht : h.Tidy args) (x : Ref) (hhas : ∀ y, h.Has y → h'.Has y)
    (hsame : ∀ y, y ≠ x → h'.parts y = h.parts y)
    (hparts : ∀ v ∈ h'.parts x, v ∈ h.parts x ∨
      h.Common args v ∧ ∀ y, v.ref? = some y → ¬ h.Reaches y x) : h'.Tidy args := by
  have hlater : h.Later args h' args := .of_has hhas
  -- Nothing changes for objects from which `x` is not reached.
  have haway (y : Ref) (hy : ¬ h.Reaches y x) : h'.Ends y := by
    induction ht.ends y with
    | intro y _ ih =>
      refine .intro y fun z hz => ?_
      have hyx : y ≠ x := fun heq => hy (heq ▸ .refl)
      have hyz : h.Contains y z := by rwa [Contains, hsame y hyx] at hz
      exact ih z hyz fun hzx => hy (.head hyz hzx)
  refine ⟨fun y v hv => ?_, fun y => ?_, fun n hn => hhas _ (ht.known n hn)⟩
  · by_cases hyx : y = x
    · subst hyx
      rcases hparts v hv with hold | ⟨hcommon, -⟩
      · exact (ht.parts y v hold).later hlater
      · exact hcommon.later hlater
    · rw [hsame y hyx] at hv
      exact (ht.parts y v hv).later hlater
  · induction ht.ends y with
    | intro y _ ih =>
      refine .intro y ?_
      rintro z ⟨v, hv, hz⟩
      by_cases hyx : y = x
      · subst hyx
        rcases hparts v hv with hold | ⟨-, hnot⟩
        · exact ih z ⟨v, hold, hz⟩
        · exact haway z (hnot z hz)
      · rw [hsame y hyx] at hv
        exact ih z ⟨v, hv, hz⟩

/-! ## Building values -/

/-- Values that were made: they may be held anywhere, and nothing else has changed. -/
structure Made (args : Set Nat) (h : Heap) (vs : List Value) (h' : Heap) : Prop where
  tidy : h'.Tidy args
  has : ∀ x, h.Has x → h'.Has x
  common : ∀ v ∈ vs, h'.Common args v

theorem Made.later (hm : Made args h vs h') : h.Later args h' args := .of_has hm.has

theorem Tidy.made (ht : h.Tidy args) (hvs : ∀ v ∈ vs, h.Common args v) : Made args h vs h :=
  ⟨ht, fun _ hx => hx, hvs⟩

theorem Made.cons (hv : Made args h [v] h') (hvs : Made args h' vs h'') : Made args h (v :: vs) h'' :=
  ⟨hvs.tidy, fun x hx => hvs.has x (hv.has x hx),
    List.forall_mem_cons.mpr ⟨(hv.common v List.mem_cons_self).later hvs.later, hvs.common⟩⟩

theorem Made.object (hm : Made args h vs h') (hx : ¬ h'.Has x) (hhas : ∀ y, h'.Has y → h''.Has y)
    (hnew : h''.Has x) (hsame : ∀ y, y ≠ x → h''.parts y = h'.parts y)
    (hparts : ∀ v ∈ h''.parts x, h'.Common args v) (hv : v.ref? = some x) : Made args h [v] h'' := by
  have hunknown : ∀ w, h'.Common args w → w.ref? ≠ some x := fun w hw hwx => hx (hw x hwx).1
  have htidy := hm.tidy.update x hhas hsame fun w hw =>
    .inr ⟨hparts w hw, fun y => hm.tidy.not_reaches hunknown (hparts w hw)⟩
  refine ⟨htidy, fun y hy => hhas y (hm.has y hy), ?_⟩
  intro w hw y hy
  rw [List.mem_singleton.mp hw, hv] at hy
  cases hy
  refine ⟨hnew, ?_⟩
  rintro n hn rfl
  exact hx (hm.tidy.known n hn)

theorem parts_newList {t : TypeId} {items : List Value} (hy : y ≠ .list h.lists.size) :
    (h.newList t items).2.parts y = h.parts y := by
  cases y with
  | list n =>
    have hne : n ≠ h.lists.size := fun heq => hy (congrArg Ref.list heq)
    simp [parts, list, newList, Array.getD_eq_getD_getElem?, Array.getElem?_push, hne]
  | map n => rfl
  | struct n => rfl

theorem parts_newMap {t : TypeId} {m : OrderedMap Value} (hy : y ≠ .map h.maps.size) :
    (h.newMap t m).2.parts y = h.parts y := by
  cases y with
  | list n => rfl
  | map n =>
    have hne : n ≠ h.maps.size := fun heq => hy (congrArg Ref.map heq)
    simp [parts, map, newMap, Array.getD_eq_getD_getElem?, Array.getElem?_push, hne]
  | struct n => rfl

theorem parts_newStruct {t : TypeId} {f : Fields Value} (hy : y ≠ .struct h.structs.size) :
    (h.newStruct t f).2.parts y = h.parts y := by
  cases y with
  | list n => rfl
  | map n => rfl
  | struct n =>
    have hne : n ≠ h.structs.size := fun heq => hy (congrArg Ref.struct heq)
    simp [parts, struct, newStruct, Array.getD_eq_getD_getElem?, Array.getElem?_push, hne]

theorem Made.newList (hm : Made args h vs h') (t : TypeId) {items : List Value}
    (hitems : ∀ v ∈ items, h'.Common args v) :
    Made args h [(h'.newList t items).1] (h'.newList t items).2 := by
  refine hm.object (x := .list h'.lists.size) (lt_irrefl _) (fun y hy => ?_) ?_ (fun y => parts_newList) ?_ rfl
  · cases y with
    | list n => exact Nat.lt_of_lt_of_le hy (by simp [Heap.newList])
    | map n => exact hy
    | struct n => exact hy
  · simp [Has, Heap.newList]
  · simpa [parts, list, Heap.newList] using hitems

theorem Made.newMap (hm : Made args h vs h') (t : TypeId) {m : OrderedMap Value}
    (hvalues : ∀ e ∈ m.table, h'.Common args e.2) :
    Made args h [(h'.newMap t m).1] (h'.newMap t m).2 := by
  refine hm.object (x := .map h'.maps.size) (lt_irrefl _) (fun y hy => ?_) ?_ (fun y => parts_newMap) ?_ rfl
  · cases y with
    | list n => exact hy
    | map n => exact Nat.lt_of_lt_of_le hy (by simp [Heap.newMap])
    | struct n => exact hy
  · simp [Has, Heap.newMap]
  · simpa [parts, map, Heap.newMap] using fun v k hk => hvalues (k, v) hk

theorem Made.newStruct (hm : Made args h vs h') (t : TypeId) {f : Fields Value}
    (hvalues : ∀ e ∈ f.entries, h'.Common args e.2) :
    Made args h [(h'.newStruct t f).1] (h'.newStruct t f).2 := by
  refine hm.object (x := .struct h'.structs.size) (lt_irrefl _) (fun y hy => ?_) ?_ (fun y => parts_newStruct) ?_ rfl
  · cases y with
    | list n => exact hy
    | map n => exact hy
    | struct n => exact Nat.lt_of_lt_of_le hy (by simp [Heap.newStruct])
  · simp [Has, Heap.newStruct]
  · simpa [parts, struct, Heap.newStruct] using fun v k hk => hvalues (k, v) hk

theorem parts_faults (h : Heap) (faults : Array Fault) (x : Ref) :
    ({ h with faults := faults } : Heap).parts x = h.parts x := by cases x <;> rfl

theorem has_faults (h : Heap) (faults : Array Fault) (x : Ref) :
    ({ h with faults := faults } : Heap).Has x ↔ h.Has x := by cases x <;> rfl

theorem later_faults (h : Heap) (args : Set Nat) (faults : Array Fault) :
    h.Later args { h with faults := faults } args := .of_has fun x => (has_faults h faults x).mpr

theorem Tidy.faults (ht : h.Tidy args) (faults : Array Fault) :
    ({ h with faults := faults } : Heap).Tidy args := by
  refine ⟨fun x v hv => ?_, fun x => ?_, fun n hn => (has_faults h faults _).mpr (ht.known n hn)⟩
  · rw [parts_faults] at hv
    exact (ht.parts x v hv).later (later_faults h args faults)
  · have hsame : (({ h with faults := faults } : Heap).Contains) = h.Contains := by
      funext x y
      rw [Contains, Contains, parts_faults]
    rw [Ends, hsame]
    exact ht.ends x

/-! ## Copies and constants -/

theorem copyAll_made {κ : Type} {source : Heap} {copy : Value → Heap → Option (Value × Heap)}
    (hcopy : ∀ v (h h' : Heap) c, source.Later args h args → h.Tidy args → source.Common args v →
      copy v h = some (c, h') → Made args h [c] h')
    {pairs copies : List (κ × Value)} (hl : source.Later args h args) (ht : h.Tidy args)
    (hpairs : ∀ e ∈ pairs, source.Common args e.2) (hc : copyAll copy pairs h = some (copies, h')) :
    Made args h (copies.map Prod.snd) h' := by
  induction pairs generalizing h copies with
  | nil =>
    cases hc
    exact ht.made (by simp)
  | cons e pairs ih =>
    obtain ⟨he, hpairs⟩ := List.forall_mem_cons.mp hpairs
    obtain ⟨⟨c, h₁⟩, hfirst, hc⟩ := Option.bind_eq_some_iff.mp hc
    obtain ⟨⟨cs, h₂⟩, hrest, hc⟩ := Option.bind_eq_some_iff.mp hc
    cases hc
    have hmade := hcopy e.2 h h₁ c hl ht he hfirst
    exact hmade.cons (ih (hl.trans hmade.later) hmade.tidy hpairs hrest)

theorem deepCopyTo_made {source : Heap} (hsource : source.Tidy args) (depth : Nat) (v : Value) (h h' : Heap)
    (c : Value) (hl : source.Later args h args) (ht : h.Tidy args) (hv : source.Common args v)
    (hc : source.deepCopyTo depth v h = some (c, h')) : Made args h [c] h' := by
  have hsame (w : Value) (hw : w.ref? = none) {h : Heap} (ht : h.Tidy args) : Made args h [w] h :=
    ht.made (List.forall_mem_singleton.mpr (common_of_ref? hw))
  have hheld (w x : Value) (hw : source.Holds w x) : source.Common args x := by
    obtain ⟨y, -, rfl | hx⟩ := hw.parts
    · exact common_of_ref? rfl
    · exact hsource.parts y x hx
  induction depth generalizing v h h' c with
  | zero => cases v <;> cases hc <;> exact hsame _ rfl ht
  | succ depth ih =>
    cases v with
    | list t ref =>
      obtain ⟨⟨copies, h₁⟩, hcopies, hc⟩ := Option.bind_eq_some_iff.mp hc
      have hall := copyAll_made ih hl ht (List.forall_mem_map.mpr fun w hw => hheld (.list t ref) w (.item hw)) hcopies
      cases hc
      exact hall.newList t hall.common
    | map t ref =>
      obtain ⟨⟨copies, h₁⟩, hcopies, hc⟩ := Option.bind_eq_some_iff.mp hc
      have hall := copyAll_made ih hl ht (fun e he => hheld (.map t ref) e.2 (.entry he)) hcopies
      cases hc
      exact hall.newMap t (OrderedMap.forall_ofPairs (List.forall_mem_map.mp hall.common))
    | struct t ref =>
      obtain ⟨⟨copies, h₁⟩, hcopies, hc⟩ := Option.bind_eq_some_iff.mp hc
      have hall := copyAll_made ih hl ht (fun e he => hheld (.struct t ref) e.2 (.field he)) hcopies
      cases hc
      exact hall.newStruct t (List.forall_mem_map.mp hall.common)
    | _ =>
      cases hc
      exact hsame _ rfl ht

theorem deepCopy_made (ht : h.Tidy args) (hv : h.Common args v) {c : Value} (hc : deepCopy? v h = some (c, h')) :
    Made args h [c] h' := deepCopyTo_made ht _ v h h' c (.refl h args) ht hv hc

mutual

theorem link_made : ∀ (d : Datum) (h : Heap), h.Tidy args → Made args h [(link d h).1] (link d h).2
  | .scalar s, h, ht => ht.made (List.forall_mem_singleton.mpr (common_of_ref? rfl))
  | .handle id, h, ht => ht.made (List.forall_mem_singleton.mpr (common_of_ref? rfl))
  | .error fault, h, ht =>
    ⟨ht.faults (h.faults.push fault), fun x => (has_faults h _ x).mpr,
      List.forall_mem_singleton.mpr (common_of_ref? rfl)⟩
  | .list t items, h, ht => by
    have hall := linkItems_made items h ht
    exact hall.newList t hall.common
  | .map t entries, h, ht => by
    have hall := linkEntries_made entries h ht
    exact hall.newMap t (OrderedMap.forall_ofPairs (List.forall_mem_map.mp hall.common))
  | .struct t fields, h, ht => by
    have hall := linkFields_made fields h ht
    exact hall.newStruct t (Fields.forall_ofPairs (List.forall_mem_map.mp hall.common))
termination_by structural d => d

theorem linkItems_made : ∀ (ds : List Datum) (h : Heap), h.Tidy args →
    Made args h (linkItems ds h).1 (linkItems ds h).2
  | [], h, ht => ht.made (by simp [linkItems])
  | d :: ds, h, ht => by
    have hfirst := link_made d h ht
    exact hfirst.cons (linkItems_made ds _ hfirst.tidy)
termination_by structural ds => ds

theorem linkEntries_made : ∀ (es : List (Scalar × Datum)) (h : Heap), h.Tidy args →
    Made args h ((linkEntries es h).1.map Prod.snd) (linkEntries es h).2
  | [], h, ht => ht.made (by simp [linkEntries])
  | (k, d) :: es, h, ht => by
    have hfirst := link_made d h ht
    exact hfirst.cons (linkEntries_made es _ hfirst.tidy)
termination_by structural es => es

theorem linkFields_made : ∀ (fs : List (String × Datum)) (h : Heap), h.Tidy args →
    Made args h ((linkFields fs h).1.map Prod.snd) (linkFields fs h).2
  | [], h, ht => ht.made (by simp [linkFields])
  | (k, d) :: fs, h, ht => by
    have hfirst := link_made d h ht
    exact hfirst.cons (linkFields_made fs _ hfirst.tidy)
termination_by structural fs => fs

end

theorem Tidy.positionalArgs (ht : h.Tidy args) (hvs : ∀ v ∈ vs, h.Common args v) :
    Made args h [(h.positionalArgs vs).1] (h.positionalArgs vs).2 := by
  refine (ht.made hvs).newMap .args (OrderedMap.forall_ofPairs ?_)
  simp only [List.mem_map, Prod.exists]
  rintro _ ⟨v, i, hv, rfl⟩
  exact hvs v (List.fst_mem_of_mem_zipIdx hv)

/-! ## Argument maps -/

theorem Tidy.newArgs (ht : h.Tidy args) (t : TypeId) :
    (h.newMap t).2.Tidy (insert h.maps.size args) ∧ h.Later args (h.newMap t).2 (insert h.maps.size args) := by
  have hnone : Made args h [] h := ht.made (by simp)
  have hmade := hnone.newMap t (m := {}) (by simp)
  have hlater : h.Later args (h.newMap t).2 (insert h.maps.size args) := by
    refine ⟨hmade.has, fun n hn => ?_, Set.subset_insert _ _⟩
    rcases hn with rfl | hn
    · exact .inr (lt_irrefl _)
    · exact .inl hn
  refine ⟨⟨fun x v hv => ?_, hmade.tidy.ends, fun n hn => ?_⟩, hlater⟩
  · have hold : h.Common args v := by
      by_cases hx : x = .map h.maps.size
      · subst hx
        simp [Heap.parts, Heap.map, Heap.newMap] at hv
      · rw [parts_newMap hx] at hv
        exact ht.parts x v hv
    exact hold.later hlater
  · rcases hn with rfl | hn
    · simp [Has, Heap.newMap]
    · exact hmade.tidy.known n hn

theorem has_setMap (n : Nat) (m : OrderedMap Value) (hx : h.Has x) : (h.setMap n m).Has x := by
  cases x <;> simpa [Has, Heap.setMap] using hx

theorem has_setStruct (n : Nat) (f : Fields Value) (hx : h.Has x) : (h.setStruct n f).Has x := by
  cases x <;> simpa [Has, Heap.setStruct] using hx

theorem later_setMap (h : Heap) (args : Set Nat) (n : Nat) (m : OrderedMap Value) :
    h.Later args (h.setMap n m) args := .of_has fun _ => has_setMap n m

theorem later_setStruct (h : Heap) (args : Set Nat) (n : Nat) (f : Fields Value) :
    h.Later args (h.setStruct n f) args := .of_has fun _ => has_setStruct n f

theorem Tidy.setMap (ht : h.Tidy args) (n : Nat) {m : OrderedMap Value} (hm : ∀ e ∈ m.table,
    e.2 ∈ h.parts (.map n) ∨ h.Common args e.2 ∧ ∀ y, e.2.ref? = some y → ¬ h.Reaches y (.map n)) :
    (h.setMap n m).Tidy args := by
  refine ht.update (.map n) (fun y => has_setMap n m) (fun y hy => ?_) ?_
  · cases y with
    | list k => rfl
    | map k =>
      have hne : n ≠ k := fun heq => hy (congrArg Ref.map heq.symm)
      simp [Heap.parts, Heap.map, Heap.setMap, Array.getD_eq_getD_getElem?, Array.getElem?_setIfInBounds_ne hne]
    | struct k => rfl
  · rcases Nat.lt_or_ge n h.maps.size with hn | hn
    · have hmap : (h.setMap n m).map n = m := by simp [Heap.map, Heap.setMap, hn]
      rw [Heap.parts, hmap]
      exact List.forall_mem_map.mpr hm
    · have hnot : ¬ (h.setMap n m).Has (.map n) := by simpa [Has, Heap.setMap] using hn
      simp [parts_of_not_has hnot]

theorem Tidy.setStruct (ht : h.Tidy args) (n : Nat) {f : Fields Value} (hf : ∀ e ∈ f.entries,
    e.2 ∈ h.parts (.struct n) ∨ h.Common args e.2 ∧ ∀ y, e.2.ref? = some y → ¬ h.Reaches y (.struct n)) :
    (h.setStruct n f).Tidy args := by
  refine ht.update (.struct n) (fun y => has_setStruct n f) (fun y hy => ?_) ?_
  · cases y with
    | list k => rfl
    | map k => rfl
    | struct k =>
      have hne : n ≠ k := fun heq => hy (congrArg Ref.struct heq.symm)
      simp [Heap.parts, Heap.struct, Heap.setStruct, Array.getD_eq_getD_getElem?, Array.getElem?_setIfInBounds_ne hne]
  · rcases Nat.lt_or_ge n h.structs.size with hn | hn
    · have hstruct : (h.setStruct n f).struct n = f := by simp [Heap.struct, Heap.setStruct, hn]
      rw [Heap.parts, hstruct]
      exact List.forall_mem_map.mpr hf
    · have hnot : ¬ (h.setStruct n f).Has (.struct n) := by simpa [Has, Heap.setStruct] using hn
      simp [parts_of_not_has hnot]

/-- A value is stored in a map that is not reached from it. -/
theorem Tidy.insertMap (ht : h.Tidy args) {n : Nat} (hv : h.Common args v)
    (hnot : ∀ y, v.ref? = some y → ¬ h.Reaches y (.map n)) (k : Scalar) :
    (h.setMap n ((h.map n).insert k v)).Tidy args := by
  refine ht.setMap n (OrderedMap.forall_store (P := fun w => w ∈ h.parts (.map n) ∨
    h.Common args w ∧ ∀ y, w.ref? = some y → ¬ h.Reaches y (.map n)) (.inr ⟨hv, hnot⟩) ?_)
  exact fun e he => .inl (List.mem_map_of_mem he)

theorem Tidy.insertStruct (ht : h.Tidy args) {n : Nat} (hv : h.Common args v)
    (hnot : ∀ y, v.ref? = some y → ¬ h.Reaches y (.struct n)) (name : String) :
    (h.setStruct n ((h.struct n).insert name v)).Tidy args := by
  refine ht.setStruct n (Fields.forall_insertInto (P := fun w => w ∈ h.parts (.struct n) ∨
    h.Common args w ∧ ∀ y, w.ref? = some y → ¬ h.Reaches y (.struct n)) ?_ (.inr ⟨hv, hnot⟩) name)
  exact fun e he => .inl (List.mem_map_of_mem he)

/-- Argument maps are reached from no value that may be held. -/
theorem Tidy.insertArg (ht : h.Tidy args) {n : Nat} (hn : n ∈ args) (hv : h.Common args v) (k : Scalar) :
    (h.setMap n ((h.map n).insert k v)).Tidy args :=
  ht.insertMap hv (fun _ hy => ht.not_reaches (fun _ hw hx => (hw _ hx).2 n hn rfl) hv hy) k

/-! ## What host code does -/

/-- A value of objects that are new. -/
def Fresh (h h' : Heap) (v : Value) : Prop := ∀ x, v.ref? = some x → ¬ h.Has x ∧ h'.Has x

/-- No object goes. What an object comes to hold is new, and what is new ends. -/
structure Grown (h h' : Heap) : Prop where
  has : ∀ x, h.Has x → h'.Has x
  old : ∀ x, h.Has x → ∀ v ∈ h'.parts x, v ∈ h.parts x ∨ h.Fresh h' v
  fresh : ∀ x, ¬ h.Has x → ∀ v ∈ h'.parts x, h.Fresh h' v
  ends : ∀ x, ¬ h.Has x → h'.Ends x

theorem Grown.of_eq (hhas : ∀ x, h'.Has x ↔ h.Has x) (hparts : ∀ x, h'.parts x = h.parts x) : h.Grown h' := by
  have hnone (x : Ref) (hx : ¬ h.Has x) : h'.parts x = [] := by rw [hparts, parts_of_not_has hx]
  refine ⟨fun x => (hhas x).mpr, fun x _ v hv => .inl (hparts x ▸ hv), fun x hx v hv => ?_,
    fun x hx => .intro x ?_⟩
  · rw [hnone x hx] at hv
    cases hv
  · rintro y ⟨v, hv, -⟩
    rw [hnone x hx] at hv
    cases hv

theorem Grown.refl (h : Heap) : h.Grown h := .of_eq (fun _ => .rfl) fun _ => rfl

theorem grown_newMap (h : Heap) (t : TypeId) : h.Grown (h.newMap t).2 := by
  have hempty : (h.newMap t).2.parts (.map h.maps.size) = [] := by
    simp [Heap.parts, Heap.map, Heap.newMap]
  have hnone (x : Ref) (hx : ¬ h.Has x) : (h.newMap t).2.parts x = [] := by
    by_cases heq : x = .map h.maps.size
    · rw [heq, hempty]
    · rw [parts_newMap heq, parts_of_not_has hx]
  refine ⟨fun x hx => ?_, fun x hx v hv => .inl ?_, fun x hx v hv => ?_, fun x hx => .intro x ?_⟩
  · cases x with
    | list n => exact hx
    | map n => exact Nat.lt_of_lt_of_le hx (by simp [Heap.newMap])
    | struct n => exact hx
  · rwa [parts_newMap] at hv
    rintro rfl
    exact lt_irrefl _ hx
  · rw [hnone x hx] at hv
    cases hv
  · rintro y ⟨v, hv, -⟩
    rw [hnone x hx] at hv
    cases hv

theorem Grown.later (hg : h.Grown h') : h.Later args h' args := .of_has hg.has

theorem fresh_of_ref? (hv : v.ref? = none) : h.Fresh h' v := by
  intro x hx
  rw [hv] at hx
  cases hx

theorem Fresh.common (hv : h.Fresh h' v) (ht : h.Tidy args) : h'.Common args v := by
  intro x hx
  obtain ⟨hold, hnew⟩ := hv x hx
  refine ⟨hnew, ?_⟩
  rintro n hn rfl
  exact hold (ht.known n hn)

theorem Tidy.grown (ht : h.Tidy args) (hg : h.Grown h') : h'.Tidy args := by
  refine ⟨fun x v hv => ?_, fun x => ?_, fun n hn => hg.has _ (ht.known n hn)⟩
  · by_cases hx : h.Has x
    · rcases hg.old x hx v hv with hold | hnew
      · exact (ht.parts x v hold).later hg.later
      · exact hnew.common ht
    · exact (hg.fresh x hx v hv).common ht
  · induction ht.ends x with
    | intro x _ ih =>
      by_cases hx : h.Has x
      · refine .intro x ?_
        rintro y ⟨v, hv, hy⟩
        rcases hg.old x hx v hv with hold | hnew
        · exact ih y ⟨v, hold, hy⟩
        · exact hg.ends y (hnew y hy).1
      · exact hg.ends x hx

/-- From what is new only what is new is reached. -/
theorem Grown.not_has_of_reaches (hg : h.Grown h') (hx : ¬ h.Has x) (hxy : h'.Reaches x y) : ¬ h.Has y := by
  induction hxy with
  | refl => exact hx
  | tail _ hzy ih =>
    obtain ⟨v, hv, hy⟩ := hzy
    exact (hg.fresh _ ih v hv _ hy).1

/-- Objects that were there reach each other as before. -/
theorem Grown.reaches (hg : h.Grown h') (hy : h.Has y) (hxy : h'.Reaches x y) : h.Reaches x y := by
  induction hxy using Relation.ReflTransGen.head_induction_on with
  | refl => exact .refl
  | @head x z hxz hzy ih =>
    have hx : h.Has x := by
      by_contra hx
      exact hg.not_has_of_reaches hx (.head hxz hzy) hy
    obtain ⟨v, hv, hz⟩ := hxz
    rcases hg.old x hx v hv with hold | hnew
    · exact .head ⟨v, hold, hz⟩ ih
    · exact absurd hy (hg.not_has_of_reaches (hnew z hz).1 hzy)

end

end Heap

end TileMind
