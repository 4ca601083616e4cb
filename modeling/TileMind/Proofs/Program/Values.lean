import TileMind.Proofs.Cbor.Items
import TileMind.Proofs.Program.Records
import TileMind.Proofs.Value.History

/-!
# TileMind.Proofs.Program.Values

Values in program files.

* `Wire.exists_ofDatum_iff`: a value is written unless it holds something that only exists while a
  brain runs, at any depth.
* `Wire.readDatumTo_ofDatum`: what was written is read back, zeros without their sign.
-/

namespace TileMind
namespace Wire

open Cbor

/-! ## Writing -/

def scalarItem (s : Scalar) : Item :=
  .ofNumbered
    [(1, some (.uint s.kind.kind.code)), (2, omitIf (s.num == 0.0) (.float s.num)),
      (3, omitIf (s.text = "") (.string s.text)), (4, omitIf (s.type = "") (.string s.type))]

theorem ofItems_eq (ds : List Datum) : ofItems ds = ds.mapM ofDatum := by
  induction ds with
  | nil => rfl
  | cons d ds ih => rw [ofItems, List.mapM_cons, ih]

theorem ofEntries_eq (entries : List (Scalar × Datum)) :
    ofEntries entries = (do
      let items ← (entries.map Prod.snd).mapM ofDatum
      return (entries.map fun e => scalarItem e.1, items)) := by
  induction entries with
  | nil => rfl
  | cons e entries ih =>
    rw [ofEntries, List.map_cons, List.mapM_cons, ih]
    cases ofDatum e.2 with
    | error err => rfl
    | ok i => cases (entries.map Prod.snd).mapM ofDatum <;> rfl

def ofField (f : String × Datum) : Except EncodeError (String × Item) := do
  let i ← ofDatum f.2
  return (f.1, i)

theorem ofField_eq_ok {f : String × Datum} {e : String × Item} :
    ofField f = .ok e ↔ f.1 = e.1 ∧ ofDatum f.2 = .ok e.2 := by
  obtain ⟨name, v⟩ := e
  unfold ofField
  cases ofDatum f.2 <;> simp [bind, Except.bind, pure, Except.pure]

theorem ofFields_eq (fields : List (String × Datum)) : ofFields fields = fields.mapM ofField := by
  induction fields with
  | nil => rfl
  | cons f fields ih =>
    rw [ofFields, List.mapM_cons, ih, ofField]
    cases ofDatum f.2 <;> rfl

theorem ofDatum_list {type : TypeId} {items : List Datum} {i : Item} :
    ofDatum (.list type items) = .ok i ↔ ∃ is, List.Forall₂ (fun d i => ofDatum d = .ok i) items is ∧
      i = .ofNumbered
        [(1, some (.uint Kind.list.code)), (4, omitIf (type = "") (.string type)),
          (5, omitIf is.isEmpty (.array is))] := by
  rw [ofDatum, ofItems_eq]
  simp only [← mapM_eq_ok_iff]
  cases items.mapM ofDatum <;> simp [bind, Except.bind, pure, Except.pure, eq_comm]

theorem ofDatum_map {type : TypeId} {entries : List (Scalar × Datum)} {i : Item} :
    ofDatum (.map type entries) = .ok i ↔
      ∃ is, List.Forall₂ (fun d i => ofDatum d = .ok i) (entries.map Prod.snd) is ∧
      i = .ofNumbered
        [(1, some (.uint Kind.map.code)), (4, omitIf (type = "") (.string type)),
          (5, omitIf is.isEmpty (.array is)),
          (6, omitIf (entries.map fun e => scalarItem e.1).isEmpty
            (.array (entries.map fun e => scalarItem e.1)))] := by
  rw [ofDatum, ofEntries_eq]
  simp only [← mapM_eq_ok_iff]
  cases (entries.map Prod.snd).mapM ofDatum <;> simp [bind, Except.bind, pure, Except.pure, eq_comm]

theorem ofDatum_struct {type : TypeId} {fields : List (String × Datum)} {i : Item} :
    ofDatum (.struct type fields) = .ok i ↔
      ∃ es, List.Forall₂ (fun f e => f.1 = e.1 ∧ ofDatum f.2 = .ok e.2) fields es ∧
      i = .ofNumbered
        [(1, some (.uint Kind.struct.code)), (4, omitIf (type = "") (.string type)),
          (7, omitIf es.isEmpty (.ofFields es))] := by
  rw [ofDatum, ofFields_eq]
  simp only [← ofField_eq_ok, ← mapM_eq_ok_iff]
  cases fields.mapM ofField <;> simp [bind, Except.bind, pure, Except.pure, eq_comm]

theorem exists_forall₂_iff {α β : Type} {R : α → β → Prop} {xs : List α} :
    (∃ ys, List.Forall₂ R xs ys) ↔ ∀ x ∈ xs, ∃ y, R x y := by
  induction xs with
  | nil => exact ⟨fun _ => by simp, fun _ => ⟨[], .nil⟩⟩
  | cons x xs ih =>
    constructor
    · rintro ⟨ys, h⟩
      obtain ⟨y, ys, hy, hys, rfl⟩ := List.forall₂_cons_left_iff.mp h
      exact List.forall_mem_cons.mpr ⟨⟨y, hy⟩, ih.mp ⟨ys, hys⟩⟩
    · intro h
      obtain ⟨⟨y, hy⟩, hxs⟩ := List.forall_mem_cons.mp h
      obtain ⟨ys, hys⟩ := ih.mpr hxs
      exact ⟨y :: ys, .cons hy hys⟩

/-- A value is written if everything directly in it is. -/
theorem exists_ofDatum_children (d : Datum) :
    (∃ i, ofDatum d = .ok i) ↔ d.isTransient = false ∧ ∀ c ∈ d.children, ∃ i, ofDatum c = .ok i := by
  cases d with
  | scalar s => simp [ofDatum, Datum.isTransient, Datum.children]
  | handle id => simp [ofDatum, Datum.isTransient]
  | error fault => simp [ofDatum, Datum.isTransient]
  | list type items =>
    simp only [ofDatum_list, Datum.isTransient, Datum.children, true_and, ← exists_forall₂_iff]
    constructor
    · rintro ⟨_, is, his, -⟩
      exact ⟨is, his⟩
    · rintro ⟨is, his⟩
      exact ⟨_, is, his, rfl⟩
  | map type entries =>
    simp only [ofDatum_map, Datum.isTransient, Datum.children, true_and, ← exists_forall₂_iff]
    constructor
    · rintro ⟨_, is, his, -⟩
      exact ⟨is, his⟩
    · rintro ⟨is, his⟩
      exact ⟨_, is, his, rfl⟩
  | struct type fields =>
    simp only [ofDatum_struct, Datum.isTransient, Datum.children, true_and, List.forall_mem_map]
    constructor
    · rintro ⟨_, es, hes, _⟩ f hf
      obtain ⟨e, he⟩ := exists_forall₂_iff.mp ⟨es, hes⟩ f hf
      exact ⟨e.2, he.2⟩
    · intro h
      have hall : ∀ f ∈ fields, ∃ e : String × Item, f.1 = e.1 ∧ ofDatum f.2 = .ok e.2 := by
        intro f hf
        obtain ⟨i, hi⟩ := h f hf
        exact ⟨(f.1, i), rfl, hi⟩
      obtain ⟨es, hes⟩ := exists_forall₂_iff.mpr hall
      exact ⟨_, es, hes, rfl⟩

theorem exists_ofDatum_iff (d : Datum) :
    (∃ i, ofDatum d = .ok i) ↔ ∀ x ∈ d.parts, x.isTransient = false := by
  induction d using Datum.induction_children with
  | h d ih =>
    rw [exists_ofDatum_children, Datum.parts_eq, List.forall_mem_cons]
    refine and_congr_right fun _ => ?_
    simp only [List.mem_flatMap]
    constructor
    · rintro h x ⟨c, hc, hx⟩
      exact (ih c hc).mp (h c hc) x hx
    · intro h c hc
      exact (ih c hc).mpr fun x hx => h x ⟨c, hc, hx⟩

/-! ## Reading -/

theorem readDatumTo_ofNumbered {fields : List (Nat × Option Item)} (depth : Nat)
    (hnumber : ∀ f ∈ fields, f.1 < 2 ^ 63) (hnodup : (fields.map Prod.fst).Nodup) :
    readDatumTo (depth + 1) (.ofNumbered fields) =
      (applyFields (partsField (readDatumTo depth)) fields {} >>= Parts.datum) := by
  have hrecord : readRecord (partsField (readDatumTo depth)) {} (.ofNumbered fields) =
      applyFields (partsField (readDatumTo depth)) fields {} := readRecord_ofNumbered _ hnumber hnodup
  rw [readDatumTo, ← hrecord]
  rfl

theorem applyFields_text {α : Type} {set : Nat → Option (Item → α → Except ReadError α)} {n : Nat}
    {put : String → α → α} (hset : set n = field (readText "") put) (text : String)
    (rest : List (Nat × Option Item)) (a : α) (hempty : put "" a = a) :
    applyFields set ((n, omitIf (text = "") (.string text)) :: rest) a =
      applyFields set rest (put text a) := by
  refine applyFields_omitIf hset (fun _ => readText_string "" text) rest a fun h => ?_
  rw [of_decide_eq_true h, hempty]

theorem scalarKind?_code (kind : ScalarKind) : scalarKind? kind.kind.code = some kind := by
  cases kind <;> rfl

theorem code_lt (kind : Kind) : kind.code < 256 := by
  cases kind <;> decide

theorem readDatumTo_scalarItem (depth : Nat) (s : Scalar) :
    readDatumTo (depth + 1) (scalarItem s) = .ok (.scalar s.canonical) := by
  have hnum : (s.num == 0.0) = false → readFloat (.float s.num) = .ok (storedNumber s.num) := by
    intro h
    rw [readFloat_float, storedNumber, h]
    rfl
  rw [scalarItem, readDatumTo_ofNumbered depth (by simp) (by simp),
    applyFields_cons rfl (readByte_uint (code_lt _)),
    applyFields_omitIf rfl hnum _ _ (fun h => by simp [storedNumber, h]),
    applyFields_text rfl _ _ _ rfl, applyFields_text rfl _ _ _ rfl]
  simp [applyFields, bind, Except.bind, Parts.datum, scalarKind?_code, Scalar.canonical]

/-- Entries are stored one after the other, as no key comes twice. -/
theorem readMap_map (type : TypeId) (entries : List (Scalar × Datum)) {m : OrderedMap Datum} (hm : m.Coherent)
    (hkeys : ∀ e ∈ entries, e.1.isPrimitive ∧ e.1.same e.1)
    (hpairs : (m.entries ++ entries).Pairwise fun a b => ¬ a.1.same b.1) :
    readMap type (entries.map fun e => (.scalar e.1, e.2)) m =
      .ok (.map type (m.entries ++ entries)) := by
  have hfold : readMap type (entries.map fun e => (.scalar e.1, e.2)) m = .ok (.map type
      (entries.foldl (fun m e => (m.insert? e.1 e.2).getD m) m).entries) := by
    clear hpairs hm
    induction entries generalizing m with
    | nil => rfl
    | cons e entries ih =>
      obtain ⟨⟨hprimitive, -⟩, hrest⟩ := List.forall_mem_cons.mp hkeys
      have hinsert : m.insert? e.1 e.2 = some (m.insert e.1 e.2) := by simp [OrderedMap.insert?, hprimitive]
      simp only [List.map_cons, readMap, Datum.scalar?, Option.bind_some, hinsert, List.foldl_cons, Option.getD_some]
      exact ih hrest
  rw [hfold, hm.entries_foldl entries hkeys hpairs]

theorem applyFields_items {α : Type} {set : Nat → Option (Item → α → Except ReadError α)} {n : Nat}
    {read : Item → Except ReadError Datum} {put : List Datum → α → α}
    (hset : set n = field (fun i => do (← readItems i).mapM read) put) {items : List Item}
    {ds : List Datum} (hread : List.Forall₂ (fun i d => read i = .ok d) items ds)
    (rest : List (Nat × Option Item)) (a : α) (hempty : put [] a = a) :
    applyFields set ((n, omitIf items.isEmpty (.array items)) :: rest) a =
      applyFields set rest (put ds a) := by
  refine applyFields_omitIf hset (fun _ => readList_array (mapM_eq_ok_iff.mpr hread)) rest a fun h => ?_
  rw [List.isEmpty_iff.mp h, List.forall₂_nil_left_iff] at hread
  rw [hread, hempty]

theorem applyFields_named {read : Item → Except ReadError Datum} {es : List (String × Item)}
    {ds : List (String × Datum)}
    (hread : List.Forall₂ (fun e d => e.1 = d.1 ∧ read e.2 = .ok d.2) es ds) (p : Parts)
    (hempty : p.fields = []) :
    ∃ ds', ds'.Perm ds ∧ applyFields (partsField read) [(7, omitIf es.isEmpty (.ofFields es))] p =
      .ok { p with fields := ds' } := by
  by_cases hes : es = []
  · subst hes
    rw [List.forall₂_nil_left_iff] at hread
    subst hread
    exact ⟨[], .refl _, by rw [← hempty]; rfl⟩
  · obtain ⟨entries, ds', hitem, hforall, hperm⟩ := exists_sorted hread
    refine ⟨ds', hperm, ?_⟩
    have hnamed := readNamed_map "" hforall
    simp [omitIf, hes, applyFields, partsField, hitem, untagged, hnamed, bind, Except.bind, pure,
      Except.pure]

theorem fits_items {fields : List (Nat × Option Item)} {n : Nat} {items : List Item}
    (hfits : (Item.ofNumbered fields).fits n) (k : Nat)
    (hmem : (k, omitIf items.isEmpty (.array items)) ∈ fields) : ∀ i ∈ items, i.fits (n + 2) := by
  intro i hi
  rw [List.isEmpty_eq_false_iff.mpr (List.ne_nil_of_mem hi)] at hmem
  exact Item.fits_array ((Item.fits_ofNumbered hfits).2 k _ hmem) i hi

theorem fits_named {fields : List (Nat × Option Item)} {n : Nat} {es : List (String × Item)}
    (hfits : (Item.ofNumbered fields).fits n) (k : Nat)
    (hmem : (k, omitIf es.isEmpty (.ofFields es)) ∈ fields) : ∀ e ∈ es, e.2.fits (n + 2) := by
  intro e he
  rw [List.isEmpty_eq_false_iff.mpr (List.ne_nil_of_mem he)] at hmem
  exact ((Item.fits_ofFields.mp ((Item.fits_ofNumbered hfits).2 k _ hmem)).2 e he).2

/-- What is written for values is read back for each of them. -/
theorem forall₂_read {read : Item → Except ReadError Datum} {n : Nat} {ds : List Datum} {is : List Item}
    (his : List.Forall₂ (fun d i => ofDatum d = .ok i) ds is) (hfits : ∀ i ∈ is, i.fits n)
    (hread : ∀ d ∈ ds, ∀ i, ofDatum d = .ok i → i.fits n → read i = .ok d.canonical) :
    List.Forall₂ (fun i d => read i = .ok d) is (ds.map Datum.canonical) := by
  induction his with
  | nil => exact .nil
  | @cons d i ds is hi _ ih =>
    refine .cons (hread d List.mem_cons_self i hi (hfits i List.mem_cons_self)) (ih ?_ ?_)
    · exact fun i hi => hfits i (List.mem_cons_of_mem _ hi)
    · exact fun d hd => hread d (List.mem_cons_of_mem _ hd)

theorem forall₂_readNamed {read : Item → Except ReadError Datum} {n : Nat}
    {fields : List (String × Datum)} {es : List (String × Item)}
    (hes : List.Forall₂ (fun f e => f.1 = e.1 ∧ ofDatum f.2 = .ok e.2) fields es)
    (hfits : ∀ e ∈ es, e.2.fits n)
    (hread : ∀ f ∈ fields, ∀ i, ofDatum f.2 = .ok i → i.fits n → read i = .ok f.2.canonical) :
    List.Forall₂ (fun e d => e.1 = d.1 ∧ read e.2 = .ok d.2) es
      (fields.map fun f => (f.1, f.2.canonical)) := by
  induction hes with
  | nil => exact .nil
  | @cons f e fields es he _ ih =>
    refine .cons ⟨he.1.symm, ?_⟩ (ih ?_ ?_)
    · exact hread f List.mem_cons_self e.2 he.2 (hfits e List.mem_cons_self)
    · exact fun e he => hfits e (List.mem_cons_of_mem _ he)
    · exact fun f hf => hread f (List.mem_cons_of_mem _ hf)

theorem readDatumTo_list {depth : Nat} (type : TypeId) {is : List Item} {ds : List Datum}
    (hread : List.Forall₂ (fun i d => readDatumTo depth i = .ok d) is ds) :
    readDatumTo (depth + 1) (.ofNumbered
      [(1, some (.uint Kind.list.code)), (4, omitIf (type = "") (.string type)),
        (5, omitIf is.isEmpty (.array is))]) = .ok (.list type ds) := by
  rw [readDatumTo_ofNumbered depth (by simp) (by simp),
    applyFields_cons rfl (readByte_uint (code_lt _)), applyFields_text rfl _ _ _ rfl,
    applyFields_items rfl hread _ _ rfl]
  rfl

theorem readDatumTo_map {depth : Nat} (type : TypeId) {entries : List (Scalar × Datum)} {is : List Item}
    (hproper : (Datum.map type entries).Proper)
    (hread : List.Forall₂ (fun i d => readDatumTo (depth + 1) i = .ok d) is
      ((entries.map Prod.snd).map Datum.canonical)) :
    readDatumTo (depth + 2) (.ofNumbered
      [(1, some (.uint Kind.map.code)), (4, omitIf (type = "") (.string type)),
        (5, omitIf is.isEmpty (.array is)),
        (6, omitIf (entries.map fun e => scalarItem e.1).isEmpty
          (.array (entries.map fun e => scalarItem e.1)))]) =
      .ok (Datum.map type entries).canonical := by
  have hkeys : List.Forall₂ (fun i d => readDatumTo (depth + 1) i = .ok d)
      (entries.map fun e => scalarItem e.1) (entries.map fun e => .scalar e.1.canonical) := by
    rw [List.forall₂_map_left_iff, List.forall₂_map_right_iff, List.forall₂_same]
    exact fun e _ => readDatumTo_scalarItem depth e.1
  rw [readDatumTo_ofNumbered (depth + 1) (by simp) (by simp),
    applyFields_cons rfl (readByte_uint (code_lt _)), applyFields_text rfl _ _ _ rfl,
    applyFields_items rfl hread _ _ rfl, applyFields_items rfl hkeys _ _ rfl]
  have hzip : (entries.map fun e => Datum.scalar e.1.canonical).zip
      ((entries.map Prod.snd).map Datum.canonical) =
      (Datum.canonicalEntries entries).map fun e => (.scalar e.1, e.2) := by
    rw [Datum.canonicalEntries_eq, List.map_map, List.map_map, List.zip_map']
    rfl
  have hcanonical : ∀ e ∈ Datum.canonicalEntries entries, e.1.isPrimitive ∧ e.1.same e.1 := by
    rw [Datum.canonicalEntries_eq, List.forall_mem_map]
    intro e he
    exact ⟨(hproper.1 e he).1, (Scalar.same_canonical e.1 e.1).trans (hproper.1 e he).2⟩
  have hpairs : (Datum.canonicalEntries entries).Pairwise fun a b => ¬ a.1.same b.1 := by
    rw [Datum.canonicalEntries_eq, List.pairwise_map]
    exact hproper.2.imp fun h => by rwa [Scalar.same_canonical]
  have hmap := readMap_map type _ OrderedMap.coherent_empty hcanonical (by simpa using hpairs)
  rw [← hzip] at hmap
  rw [Datum.canonical, ← List.nil_append (Datum.canonicalEntries entries), ← OrderedMap.entries_empty, ← hmap]
  have hlength : (entries.map fun e => Datum.scalar e.1.canonical).length =
      ((entries.map Prod.snd).map Datum.canonical).length := by simp
  simp only [applyFields, bind, Except.bind, Parts.datum]
  rw [if_neg (not_not.mpr hlength)]
  rfl

theorem readDatumTo_struct {depth : Nat} (type : TypeId) {fields : List (String × Datum)}
    {es : List (String × Item)} (hproper : (Datum.struct type fields).Proper)
    (hread : List.Forall₂ (fun e d => e.1 = d.1 ∧ readDatumTo depth e.2 = .ok d.2) es
      (fields.map fun f => (f.1, f.2.canonical))) :
    readDatumTo (depth + 1) (.ofNumbered
      [(1, some (.uint Kind.struct.code)), (4, omitIf (type = "") (.string type)),
        (7, omitIf es.isEmpty (.ofFields es))]) = .ok (Datum.struct type fields).canonical := by
  rw [readDatumTo_ofNumbered depth (by simp) (by simp),
    applyFields_cons rfl (readByte_uint (code_lt _)), applyFields_text rfl _ _ _ rfl]
  obtain ⟨ds, hperm, happly⟩ := applyFields_named hread
    { kind := Kind.struct.code, type := type } rfl
  have hsorted : (Fields.ofList ds).entries = fields.map fun f => (f.1, f.2.canonical) :=
    Fields.ofList_of_perm hperm (List.pairwise_map.mpr hproper)
  rw [happly, Datum.canonical, Datum.canonicalFields_eq, ← hsorted]
  rfl

/-- A value that was written is read back as it is stored. Its nesting is bounded by that of its item,
which takes two levels for each of the value. -/
theorem readDatumTo_ofDatum (d : Datum) : ∀ (depth n : Nat) (i : Item), ofDatum d = .ok i →
    d.WellFormed → i.fits n → maxNesting + 1 < depth + n → readDatumTo depth i = .ok d.canonical := by
  induction d using Datum.induction_children with
  | h d ih =>
    intro depth n i hi hd hfits hdepth
    have hproper : d.Proper := hd d d.self_mem_parts
    have hread (depth' : Nat) (hdepth' : depth = depth' + 1) : ∀ c ∈ d.children, ∀ i,
        ofDatum c = .ok i → i.fits (n + 2) → readDatumTo depth' i = .ok c.canonical := by
      intro c hc i hi hfits
      exact ih c hc depth' (n + 2) i hi (hd.child hc) hfits (by omega)
    cases d with
    | handle id => cases hi
    | error fault => cases hi
    | scalar s =>
      cases hi
      have hn := (Item.fits_ofNumbered hfits).1
      obtain ⟨depth, rfl⟩ : ∃ k, depth = k + 1 := ⟨depth - 1, by omega⟩
      exact readDatumTo_scalarItem depth s
    | list type items =>
      obtain ⟨is, his, rfl⟩ := ofDatum_list.mp hi
      have hn := (Item.fits_ofNumbered hfits).1
      obtain ⟨depth, rfl⟩ : ∃ k, depth = k + 1 := ⟨depth - 1, by omega⟩
      rw [readDatumTo_list type (forall₂_read his (fits_items hfits 5 (by simp)) (hread depth rfl)),
        Datum.canonical, Datum.canonicalItems_eq]
    | map type entries =>
      obtain ⟨is, his, rfl⟩ := ofDatum_map.mp hi
      have hn := (Item.fits_ofNumbered hfits).1
      obtain ⟨depth, rfl⟩ : ∃ k, depth = k + 2 := ⟨depth - 2, by omega⟩
      exact readDatumTo_map type hproper
        (forall₂_read his (fits_items hfits 5 (by simp)) (hread (depth + 1) rfl))
    | struct type fields =>
      obtain ⟨es, hes, rfl⟩ := ofDatum_struct.mp hi
      have hn := (Item.fits_ofNumbered hfits).1
      obtain ⟨depth, rfl⟩ : ∃ k, depth = k + 1 := ⟨depth - 1, by omega⟩
      exact readDatumTo_struct type hproper (forall₂_readNamed hes (fits_named hfits 7 (by simp))
        fun f hf => hread depth rfl f.2 (List.mem_map_of_mem hf))

end Wire
end TileMind
