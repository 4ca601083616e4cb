import TileMind.Proofs.Value.Containment

/-!
# TileMind.Proofs.Value.Copies

Copies of values. A value that does not contain itself has a copy, of objects of its own, that reads the same.

* `Heap.Mirrors`: copies, object by object.
* `Heap.copied_deepCopy?`: a value that ends is copied.
* `OrderedMap.maps_agree`: maps, and copies of values with maps in them.
-/

namespace TileMind

/-- A map that was made by changes, without a NaN among its keys. -/
def OrderedMap.Made {α : Type} [Inhabited α] (m : OrderedMap α) : Prop :=
  (∃ changes : List (Change α), m = after changes) ∧ ∀ k ∈ m.keys, k.num.isNaN = false

namespace Heap

/-- All objects under a value are there, and the maps among them were made by changes without a NaN. -/
structure Whole (h : Heap) (v : Value) : Prop where
  has : ∀ y, h.Under v y → h.Has y
  made : ∀ n, h.Under v (.map n) → (h.map n).Made

section

variable {h h' h'' : Heap} {x y : Ref} {v w : Value} {n : Nat}

theorem Under.of_mem (hv : v.ref? = some x) (hw : w ∈ h.parts x) (hy : h.Under w y) : h.Under v y := by
  obtain ⟨z, hz, hzy⟩ := hy
  exact ⟨x, hv, .head ⟨w, hw, hz⟩ hzy⟩

theorem Whole.part (h₀ : h.Whole v) (hv : v.ref? = some x) (hw : w ∈ h.parts x) : h.Whole w :=
  ⟨fun y hy => h₀.has y (hy.of_mem hv hw), fun n hn => h₀.made n (hn.of_mem hv hw)⟩

theorem Whole.held (h₀ : h.Whole v) (hw : h.Holds v w) : h.Whole w := by
  obtain ⟨x, hx, rfl | hw⟩ := hw.parts
  · refine ⟨?_, ?_⟩ <;> rintro _ ⟨z, hz, -⟩ <;> cases hz
  · exact h₀.part hx hw

theorem Whole.has_ref (h₀ : h.Whole v) (hv : v.ref? = some x) : h.Has x := h₀.has x ⟨x, hv, .refl⟩

/-- The heap has more objects than before. Faults are the same. -/
structure Adds (h h' : Heap) : Prop extends Extends h h' where
  faults_eq : h'.faults = h.faults

theorem Adds.refl (h : Heap) : h.Adds h := ⟨.refl h, rfl⟩

theorem Adds.trans (a : h.Adds h') (b : h'.Adds h'') : h.Adds h'' :=
  ⟨a.toExtends.trans b.toExtends, b.faults_eq.trans a.faults_eq⟩

/-- New objects are none of those that were there. -/
theorem Adds.has (a : h.Adds h') (hx : h.Has x) : h'.Has x := by
  cases x with
  | list n => exact Nat.lt_of_lt_of_le hx (by simpa using a.lists.length_le)
  | map n => exact Nat.lt_of_lt_of_le hx (by simpa using a.maps.length_le)
  | struct n => exact Nat.lt_of_lt_of_le hx (by simpa using a.structs.length_le)

/-- The value `c` was copied from `v`, of which no more than `depth` containers lie in each other: its objects are new,
and they hold copies of what the objects of `v` hold. -/
def Mirrors (h h' : Heap) : (depth : Nat) → (v c : Value) → Prop
  | depth + 1, .list t x, c =>
    ∃ y, c = .list t y ∧ ¬ h.Has (.list y) ∧ List.Forall₂ (Mirrors h h' depth) (h.list x) (h'.list y)
  | depth + 1, .map t x, c =>
    ∃ y, c = .map t y ∧ ¬ h.Has (.map y) ∧ (h'.map y).Coherent ∧
      List.Forall₂ (fun a b => a.1 = b.1 ∧ Mirrors h h' depth a.2 b.2) (h.map x).entries (h'.map y).entries
  | depth + 1, .struct t x, c =>
    ∃ y, c = .struct t y ∧ ¬ h.Has (.struct y) ∧
      List.Forall₂ (fun a b => a.1 = b.1 ∧ Mirrors h h' depth a.2 b.2) (h.struct x).entries (h'.struct y).entries
  | _, v, c => v.ref? = none ∧ c = v

theorem mirrors_of_ref? (hv : v.ref? = none) (depth : Nat) : h.Mirrors h' depth v v := by
  cases v <;> first | (cases hv; done) | simp [Mirrors, Value.ref?]

theorem Mirrors.eq_of_ref? {depth : Nat} {c : Value} (hm : h.Mirrors h' depth v c) (hv : v.ref? = none) : c = v := by
  cases v <;> first | (cases hv; done) | exact (by simpa [Mirrors] using hm : _ ∧ c = _).2

/-- What is added piece by piece is there in the end. -/
theorem copyAll_mirrors {κ : Type} {copy : Value → Heap → Option (Value × Heap)} {R : Heap → Value → Value → Prop}
    {h₀ : Heap} {pairs copies : List (κ × Value)}
    (hcopy : ∀ e ∈ pairs, ∀ h h' c, h₀.Adds h → copy e.2 h = some (c, h') →
      h.Adds h' ∧ ∀ h'', h'.Adds h'' → R h'' e.2 c)
    (hadds : h₀.Adds h) (hc : copyAll copy pairs h = some (copies, h')) :
    h.Adds h' ∧ ∀ h'', h'.Adds h'' → List.Forall₂ (fun a b => a.1 = b.1 ∧ R h'' a.2 b.2) pairs copies := by
  induction pairs generalizing h copies with
  | nil =>
    cases hc
    exact ⟨.refl _, fun _ _ => .nil⟩
  | cons e pairs ih =>
    obtain ⟨hfirst, hrest⟩ := List.forall_mem_cons.mp hcopy
    obtain ⟨⟨c, h₁⟩, hone, hc⟩ := Option.bind_eq_some_iff.mp hc
    obtain ⟨⟨cs, h₂⟩, hall, hc⟩ := Option.bind_eq_some_iff.mp hc
    cases hc
    obtain ⟨hadd, hread⟩ := hfirst h h₁ c hadds hone
    obtain ⟨hadd', hread'⟩ := ih hrest (hadds.trans hadd) hall
    exact ⟨hadd.trans hadd', fun h'' hh'' => .cons ⟨rfl, hread h'' (hadd'.trans hh'')⟩ (hread' h'' hh'')⟩

/-- The pairs of a map that was made can be stored again, one after the other. -/
theorem entries_ofList_of_made {m : OrderedMap Value} (hm : m.Made) {pairs : List (Scalar × Value)}
    (hkeys : pairs.map Prod.fst = m.keys) : (OrderedMap.ofList pairs).entries = pairs := by
  obtain ⟨⟨changes, rfl⟩, hnan⟩ := hm
  obtain ⟨hcoherent, hprimitive⟩ := OrderedMap.keys_after changes
  refine OrderedMap.entries_ofList (fun e he => ?_) ?_
  · have hmem : e.1 ∈ (OrderedMap.after changes).keys := hkeys ▸ List.mem_map_of_mem he
    exact ⟨hprimitive _ hmem, Scalar.same_self (hnan _ hmem)⟩
  · have hdistinct := hcoherent.distinct
    rw [OrderedMap.Distinct, ← hkeys] at hdistinct
    exact List.pairwise_map.mp hdistinct

theorem Adds.newList (h : Heap) (t : TypeId) (items : List Value) : h.Adds (h.newList t items).2 :=
  ⟨.newList h t items, rfl⟩

theorem Adds.newMap (h : Heap) (t : TypeId) (m : OrderedMap Value) : h.Adds (h.newMap t m).2 := ⟨.newMap h t m, rfl⟩

theorem Adds.newStruct (h : Heap) (t : TypeId) (f : Fields Value) : h.Adds (h.newStruct t f).2 :=
  ⟨.newStruct h t f, rfl⟩

theorem list_new {t : TypeId} {items : List Value} (a : (h.newList t items).2.Adds h') :
    h'.list h.lists.size = items := by
  rw [a.list_eq (by simp [newList])]
  simp [newList, list]

theorem map_new {t : TypeId} {m : OrderedMap Value} (a : (h.newMap t m).2.Adds h') : h'.map h.maps.size = m := by
  rw [a.map_eq (by simp [newMap])]
  simp [newMap, map]

theorem struct_new {t : TypeId} {f : Fields Value} (a : (h.newStruct t f).2.Adds h') :
    h'.struct h.structs.size = f := by
  rw [a.struct_eq (by simp [newStruct])]
  simp [newStruct, struct]

/-- A value is copied as `Mirrors` says, after whatever else was added. -/
theorem deepCopyTo_mirrors {h₀ : Heap} (depth : Nat) {c : Value} (hv : h₀.Whole v) (hadds : h₀.Adds h)
    (hc : h₀.deepCopyTo depth v h = some (c, h')) :
    h.Adds h' ∧ ∀ h'', h'.Adds h'' → h₀.Mirrors h'' depth v c := by
  induction depth generalizing v h h' c with
  | zero => cases v <;> cases hc <;> exact ⟨.refl h, fun _ _ => mirrors_of_ref? rfl 0⟩
  | succ depth ih =>
    cases v with
    | list t x =>
      obtain ⟨⟨copies, h₁⟩, hcopies, hc⟩ := Option.bind_eq_some_iff.mp hc
      obtain ⟨hadd, hread⟩ := copyAll_mirrors (R := fun h'' => h₀.Mirrors h'' depth)
        (List.forall_mem_map.mpr fun w hw h h' c hh hc => ih (hv.held (.item hw)) hh hc) hadds hcopies
      cases hc
      refine ⟨hadd.trans (.newList h₁ t _), fun h'' hh'' => ⟨_, rfl, ?_, ?_⟩⟩
      · exact fun hhas => lt_irrefl _ ((hadds.trans hadd).has hhas)
      · rw [list_new (t := t) hh'', List.forall₂_map_right_iff]
        have hpairs := List.forall₂_map_left_iff.mp (hread h'' ((Adds.newList h₁ t _).trans hh''))
        exact hpairs.imp fun _ _ hboth => hboth.2
    | map t x =>
      obtain ⟨⟨copies, h₁⟩, hcopies, hc⟩ := Option.bind_eq_some_iff.mp hc
      obtain ⟨hadd, hread⟩ := copyAll_mirrors (R := fun h'' => h₀.Mirrors h'' depth)
        (fun e he h h' c hh hc => ih (hv.held (.entry he)) hh hc) hadds hcopies
      cases hc
      refine ⟨hadd.trans (.newMap h₁ t _), fun h'' hh'' => ⟨_, rfl, ?_, ?_, ?_⟩⟩
      · exact fun hhas => lt_irrefl _ ((hadds.trans hadd).has hhas)
      · rw [map_new (t := t) hh'']
        exact OrderedMap.coherent_ofList copies
      · have hpairs := hread h'' ((Adds.newMap h₁ t _).trans hh'')
        have hkeys := (map_eq_of_forall₂ hpairs fun _ _ hboth => hboth.1).symm
        rw [OrderedMap.map_fst_entries] at hkeys
        rwa [map_new (t := t) hh'', entries_ofList_of_made (hv.made x ⟨_, rfl, .refl⟩) hkeys]
    | struct t x =>
      obtain ⟨⟨copies, h₁⟩, hcopies, hc⟩ := Option.bind_eq_some_iff.mp hc
      obtain ⟨hadd, hread⟩ := copyAll_mirrors (R := fun h'' => h₀.Mirrors h'' depth)
        (fun e he h h' c hh hc => ih (hv.held (.field he)) hh hc) hadds hcopies
      cases hc
      refine ⟨hadd.trans (.newStruct h₁ t _), fun h'' hh'' => ⟨_, rfl, ?_, ?_⟩⟩
      · exact fun hhas => lt_irrefl _ ((hadds.trans hadd).has hhas)
      · rw [struct_new (t := t) hh'']
        exact hread h'' ((Adds.newStruct h₁ t _).trans hh'')
    | _ =>
      cases hc
      exact ⟨.refl _, fun _ _ => mirrors_of_ref? rfl _⟩

/-- A value reads the same after more was added. -/
theorem snapshotTo_adds (hv : h.Whole v) (hadds : h.Adds h') (n : Nat) : h'.snapshotTo n v = h.snapshotTo n v := by
  induction n generalizing v with
  | zero => cases v <;> simp [snapshotTo, fault, hadds.faults_eq]
  | succ n ih =>
    cases v with
    | list t x =>
      rw [snapshotTo, snapshotTo, hadds.list_eq (hv.has_ref rfl)]
      exact congrArg (Datum.list t) (List.map_congr_left fun w hw => ih (hv.held (.item hw)))
    | map t x =>
      rw [snapshotTo, snapshotTo, hadds.map_eq (hv.has_ref rfl), List.map_congr_left fun e he => ?_]
      rw [ih (hv.held (.entry he))]
    | struct t x =>
      rw [snapshotTo, snapshotTo, hadds.struct_eq (hv.has_ref rfl), List.map_congr_left fun e he => ?_]
      rw [ih (hv.held (.field he))]
    | scalar s => simp [snapshotTo]
    | handle id => simp [snapshotTo]
    | error ref => simp [snapshotTo, fault, hadds.faults_eq]

theorem map_pairs_eq {κ : Type} {R : Value → Value → Prop} {f g : Value → Datum} {as bs : List (κ × Value)}
    (hpairs : List.Forall₂ (fun a b => a.1 = b.1 ∧ R a.2 b.2) as bs)
    (hR : ∀ a ∈ as, ∀ c, R a.2 c → f c = g a.2) : bs.map (fun e => (e.1, f e.2)) = as.map fun e => (e.1, g e.2) := by
  have hall := (List.forall₂_and_left _ _).mpr ⟨hR, hpairs⟩
  refine (map_eq_of_forall₂ hall fun a b hab => ?_).symm
  rw [hab.1 b.2 hab.2.2, hab.2.1]

/-- A copy reads as what it was copied from. -/
theorem Mirrors.snapshotTo_eq {depth : Nat} {c : Value} (hm : h.Mirrors h' depth v c) (hv : h.Whole v)
    (hadds : h.Adds h') (n : Nat) : h'.snapshotTo n c = h.snapshotTo n v := by
  have hsame (v c : Value) (hm : v.ref? = none ∧ c = v) (hv : h.Whole v) (n : Nat) :
      h'.snapshotTo n c = h.snapshotTo n v := by
    rw [hm.2, snapshotTo_adds hv hadds]
  induction depth generalizing v c n with
  | zero =>
    have hleaf : v.ref? = none ∧ c = v := by cases v <;> exact hm
    exact hsame v c hleaf hv n
  | succ depth ih =>
    cases v with
    | list t x =>
      obtain ⟨y, rfl, -, hitems⟩ := hm
      cases n with
      | zero => simp [snapshotTo]
      | succ n =>
        have hwhole : ∀ w ∈ h.list x, h.Whole w := fun w hw => hv.held (.item hw)
        have hall := (List.forall₂_and_left _ _).mpr ⟨hwhole, hitems⟩
        rw [snapshotTo, snapshotTo, map_eq_of_forall₂ hall fun a b hab => (ih hab.2 hab.1 n).symm]
    | map t x =>
      obtain ⟨y, rfl, -, -, hentries⟩ := hm
      cases n with
      | zero => simp [snapshotTo]
      | succ n =>
        rw [snapshotTo, snapshotTo, map_pairs_eq hentries fun e he c hc => ih hc (hv.held (.entry he)) n]
    | struct t x =>
      obtain ⟨y, rfl, -, hentries⟩ := hm
      cases n with
      | zero => simp [snapshotTo]
      | succ n =>
        rw [snapshotTo, snapshotTo, map_pairs_eq hentries fun e he c hc => ih hc (hv.held (.field he)) n]
    | _ => exact hsame _ c hm hv n

theorem exists_of_forall₂ {β γ : Type} {R : β → γ → Prop} {bs : List β} {cs : List γ} (hall : List.Forall₂ R bs cs) :
    ∀ c ∈ cs, ∃ b ∈ bs, R b c := by
  induction hall with
  | nil => simp
  | @cons b c bs cs hbc _ ih =>
    refine List.forall_mem_cons.mpr ⟨⟨b, List.mem_cons_self, hbc⟩, fun c hc => ?_⟩
    obtain ⟨b, hb, hbc⟩ := ih c hc
    exact ⟨b, List.mem_cons_of_mem _ hb, hbc⟩

/-- The object of a copy is new, and holds copies of what stands in the value. -/
theorem Mirrors.object {depth : Nat} {c : Value} (hm : h.Mirrors h' depth v c) (hc : c.ref? = some y) :
    ¬ h.Has y ∧ ∃ k, depth = k + 1 ∧ ∀ d ∈ h'.parts y, ∃ w, h.Mirrors h' k w d := by
  have hleaf (v c : Value) (hm : v.ref? = none ∧ c = v) : c.ref? ≠ some y := by
    rw [hm.2, hm.1]
    exact nofun
  cases depth with
  | zero =>
    have hm : v.ref? = none ∧ c = v := by cases v <;> exact hm
    exact absurd hc (hleaf v c hm)
  | succ depth =>
    cases v with
    | list t x =>
      obtain ⟨z, rfl, hnew, hitems⟩ := hm
      cases hc
      refine ⟨hnew, _, rfl, fun d hd => ?_⟩
      obtain ⟨w, -, hwd⟩ := exists_of_forall₂ hitems d hd
      exact ⟨w, hwd⟩
    | map t x =>
      obtain ⟨z, rfl, hnew, hcoherent, hentries⟩ := hm
      cases hc
      refine ⟨hnew, _, rfl, List.forall_mem_map.mpr fun e he => ?_⟩
      obtain ⟨e', he', heq⟩ := hcoherent.mem_entries he
      obtain ⟨a, -, -, hcopy⟩ := exists_of_forall₂ hentries e' he'
      exact ⟨a.2, heq ▸ hcopy⟩
    | struct t x =>
      obtain ⟨z, rfl, hnew, hentries⟩ := hm
      cases hc
      refine ⟨hnew, _, rfl, List.forall_mem_map.mpr fun e he => ?_⟩
      obtain ⟨a, -, -, hcopy⟩ := exists_of_forall₂ hentries e he
      exact ⟨a.2, hcopy⟩
    | _ => exact absurd hc (hleaf _ c hm)

/-- A copy shares no object with what it was copied from. -/
theorem Mirrors.not_has {depth : Nat} {c : Value} (hm : h.Mirrors h' depth v c) (hy : h'.Under c y) : ¬ h.Has y := by
  induction depth generalizing v c with
  | zero =>
    obtain ⟨z, hz, -⟩ := hy
    obtain ⟨-, k, hk, -⟩ := hm.object hz
    cases hk
  | succ depth ih =>
    obtain ⟨z, hz, hzy⟩ := hy
    obtain ⟨hnew, k, hk, hparts⟩ := hm.object hz
    rcases Relation.ReflTransGen.cases_head hzy with rfl | ⟨u, ⟨d, hd, hdu⟩, huy⟩
    · exact hnew
    · obtain ⟨w, hwd⟩ := hparts d hd
      cases hk
      exact ih hwd ⟨u, hdu, huy⟩

end

/-- The value `c` is a copy of `v`. It reads the same at every level, the keys of maps and the values under them
being the same and in the same order; what was there is there still; and it has none of the objects of `v`. -/
structure Copied (h : Heap) (v c : Value) (h' : Heap) : Prop where
  reads : ∀ n, h'.snapshotTo n c = h.snapshotTo n v
  adds : h.Adds h'
  fresh : ∀ y, h'.Under c y → ¬ h.Has y

/-- A value that does not contain itself is copied. -/
theorem copied_deepCopy? {h : Heap} {v : Value} (hv : h.Whole v) (hno : ¬ h.Circular v) :
    ∃ c h', deepCopy? v h = some (c, h') ∧ h.Copied v c h' := by
  obtain ⟨⟨c, h'⟩, hc⟩ := (nests_of_not_circular hno).deepCopyTo h
  obtain ⟨hadds, hmirrors⟩ := deepCopyTo_mirrors (h.size + 1) hv (.refl h) hc
  have hm := hmirrors h' (.refl h')
  exact ⟨c, h', hc, hm.snapshotTo_eq hv hadds, hadds, fun y hy => hm.not_has hy⟩

end Heap

namespace OrderedMap

/-- Maps agree with what was done to them: whatever was stored in a map and deleted from it, if no NaN was offered as a
key. And a value with such maps that does not contain itself has a copy, with the same keys in the same order and the
same values under them, at every level. -/
theorem maps_agree {changes : List (Change Value)} (hchanges : ∀ c ∈ changes, c.key.rawNumber.isNaN = false)
    {h : Heap} {v : Value} (hv : h.Whole v) (hno : ¬ h.Circular v) :
    Consistent changes (after changes) ∧ ∃ c h', Heap.deepCopy? v h = some (c, h') ∧ h.Copied v c h' :=
  ⟨consistent_after hchanges, Heap.copied_deepCopy? hv hno⟩

/-- A map with a list in it. Zero is stored twice, a list is refused as a key, and one key comes in again. -/
def shelf : List (Change Value) :=
  [.set (.bool true) .nil, .set (.number 0.0) (.string "a"), .set (.number (-0.0)) (.string "b"), .delete (.bool true),
    .set (.list "list<number>" 0) .nil, .set (.bool true) (.list "list<number>" 0)]

def shelfHeap : Heap := { lists := #[[.number 1.0]], maps := #[after shelf] }

theorem maps_agree_shelf : (∀ c ∈ shelf, c.key.rawNumber.isNaN = false) ∧ shelfHeap.Whole (.map "map<unknown>" 0) ∧
    ¬ shelfHeap.Circular (.map "map<unknown>" 0) ∧ Consistent shelf (after shelf) ∧
      ∃ c h', Heap.deepCopy? (.map "map<unknown>" 0) shelfHeap = some (c, h') ∧
        shelfHeap.Copied (.map "map<unknown>" 0) c h' := by
  have hkeys : ∀ c ∈ shelf, c.key.rawNumber.isNaN = false := by decide +kernel
  have hmap : ∀ w ∈ shelfHeap.parts (.map 0), w.ref? = none ∨ w.ref? = some (.list 0) := by decide +kernel
  have hlist : ∀ w ∈ shelfHeap.parts (.list 0), w.ref? = none := by decide +kernel
  have hunder (y : Ref) (hy : shelfHeap.Under (.map "map<unknown>" 0) y) : y = .map 0 ∨ y = .list 0 := by
    obtain ⟨x, hx, hreaches⟩ := hy
    cases hx
    induction hreaches with
    | refl => exact .inl rfl
    | tail _ hlast ih =>
      obtain ⟨w, hw, hwy⟩ := hlast
      rcases ih with rfl | rfl
      · rcases hmap w hw with hnone | hsome
        · simp [hnone] at hwy
        · exact .inr (by simpa [hsome] using hwy.symm)
      · simp [hlist w hw] at hwy
  have hwhole : shelfHeap.Whole (.map "map<unknown>" 0) := by
    refine ⟨fun y hy => ?_, fun n hn => ?_⟩
    · rcases hunder y hy with rfl | rfl <;> exact Nat.zero_lt_one
    · have hzero : n = 0 := by simpa using hunder _ hn
      subst hzero
      exact ⟨⟨shelf, rfl⟩, by decide +kernel⟩
  have hends : shelfHeap.Ends (.list 0) := .intro _ fun y ⟨w, hw, hwy⟩ => by simp [hlist w hw] at hwy
  have hno : ¬ shelfHeap.Circular (.map "map<unknown>" 0) := by
    refine Heap.not_circular_iff.mpr fun x hx => ?_
    cases hx
    refine .intro _ fun y ⟨w, hw, hwy⟩ => ?_
    rcases hmap w hw with hnone | hsome
    · simp [hnone] at hwy
    · rw [hsome] at hwy
      exact Option.some.inj hwy ▸ hends
  exact ⟨hkeys, hwhole, hno, maps_agree hkeys hwhole hno⟩

/-- A map that is stored in itself. -/
def loopHeap : Heap := { maps := #[after [.set (.string "self") (.map "map<unknown>" 0)]] }

/-- Such a map is not copied, although there is no NaN in it. -/
theorem loop_not_copied :
    loopHeap.Whole (.map "map<unknown>" 0) ∧ Heap.deepCopy? (.map "map<unknown>" 0) loopHeap = none := by
  have hself : ∀ w ∈ loopHeap.parts (.map 0), w.ref? = some (.map 0) := by decide +kernel
  have hunder (y : Ref) (hy : loopHeap.Under (.map "map<unknown>" 0) y) : y = .map 0 := by
    obtain ⟨x, hx, hreaches⟩ := hy
    cases hx
    induction hreaches with
    | refl => rfl
    | tail _ hlast ih =>
      obtain ⟨w, hw, hwy⟩ := hlast
      rw [ih] at hw
      simpa [hself w hw] using hwy.symm
  refine ⟨⟨fun y hy => ?_, fun n hn => ?_⟩, by decide +kernel⟩
  · rw [hunder y hy]
    exact Nat.zero_lt_one
  · obtain rfl : n = 0 := by simpa using hunder _ hn
    exact ⟨⟨_, rfl⟩, by decide +kernel⟩

end OrderedMap

end TileMind
