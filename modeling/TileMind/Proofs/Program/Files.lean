import TileMind.Proofs.Program.Values

/-!
# TileMind.Proofs.Program.Files

Program files: which programs are written, and that they are read back.

The main result is `Program.decode_encode`. What a program is in memory is more than what its type
says: integers have 64 bits, tables of names are in order, and the parts of a constant are proper
(`Program.WellFormed`).
-/

namespace TileMind

open Cbor Wire

/-! ## Records of a program -/

namespace Wire

theorem applyFields_int {α : Type} {set : Nat → Option (Item → α → Except ReadError α)} {n : Nat}
    {put : Int → α → α} (hset : set n = field readInt64 put) {x : Int} (hx : IsInt64 x)
    (rest : List (Nat × Option Item)) (a : α) (hzero : put 0 a = a) :
    applyFields set ((n, omitIf (x = 0) (.int x)) :: rest) a = applyFields set rest (put x a) := by
  refine applyFields_omitIf hset (fun _ => readInt64_int hx) rest a fun h => ?_
  rw [of_decide_eq_true h, hzero]

theorem applyFields_int32 {α : Type} {set : Nat → Option (Item → α → Except ReadError α)} {n : Nat}
    {put : Int32 → α → α} (hset : set n = field readInt32 put) (x : Int32)
    (rest : List (Nat × Option Item)) (a : α) (hzero : put 0 a = a) :
    applyFields set ((n, omitIf (x = 0) (.int x.toInt)) :: rest) a =
      applyFields set rest (put x a) := by
  refine applyFields_omitIf hset (fun _ => readInt32_int x) rest a fun h => ?_
  rw [of_decide_eq_true h, hzero]

theorem readInstr_ofInstr (i : Instr) : readInstr (ofInstr i) = .ok i := by
  rw [readInstr, ofInstr, readRecord_ofNumbered _ (by simp) (by simp),
    applyFields_cons rfl (readByte_uint i.code.toNat_lt), applyFields_int32 rfl _ _ _ rfl,
    applyFields_int32 rfl _ _ _ rfl, applyFields_int32 rfl _ _ _ rfl]
  simp [applyFields]

theorem readList_listOr_self {α : Type} {read : Item → Except ReadError α} {f : α → Item} (blank : Bool)
    {xs : List α} (h : ∀ x ∈ xs, read (f x) = .ok x) : readList read (listOr blank xs f) = .ok xs := by
  rw [readList_listOr blank h, List.map_id']

theorem readFunction_ofFunction (blanks : Blanks) {f : Function} (n : Nat) (hparams : IsInt64 f.params)
    (hstack : IsInt64 f.maxStack) : readFunction (ofFunction blanks f n) = .ok f := by
  rw [readFunction, ofFunction, readRecord_ofNumbered _ (by simp) (by simp),
    applyFields_cons rfl (readText_string "" f.name),
    applyFields_cons rfl (readList_listOr_self _ fun i _ => readInstr_ofInstr i),
    applyFields_int rfl hparams _ _ rfl, applyFields_int rfl hstack _ _ rfl]
  rfl

theorem readSite_ofNumbered {s : CallSite} (hfn : IsInt64 s.fn) (hsite : IsInt64 s.site) :
    readSite (.ofNumbered [(1, some (.int s.fn)), (2, some (.int s.site))]) = .ok s := by
  rw [readSite, readRecord_ofNumbered _ (by simp) (by simp),
    applyFields_cons rfl (readInt64_int hfn), applyFields_cons rfl (readInt64_int hsite)]
  rfl

theorem readPage_ofPage (blanks : Blanks) {p : PageInfo} (n : Nat) (hindex : IsInt64 p.index)
    (hroots : ∀ r ∈ p.roots, IsInt64 r) (hsites : ∀ s ∈ p.sites, IsInt64 s.fn ∧ IsInt64 s.site) :
    readPage (ofPage blanks p n) = .ok p := by
  rw [readPage, ofPage, readRecord_ofNumbered _ (by simp) (by simp),
    applyFields_cons rfl (readInt64_int hindex), applyFields_cons rfl (readText_string "" p.id),
    applyFields_cons rfl (readText_string "" p.name),
    applyFields_cons rfl (readList_listOr_self _ fun r hr => readInt64_int (hroots r hr)),
    applyFields_cons rfl (readList_listOr_self _ fun s hs =>
      readSite_ofNumbered (hsites s hs).1 (hsites s hs).2)]
  rfl

theorem readRule_ofRule {r : RuleInfo} (hfunc : IsInt64 r.func) (hpage : IsInt64 r.page)
    (hparent : IsInt64 r.parent) (hlocals : ∀ n ∈ r.locals, IsInt64 n) :
    readRule (ofRule r) = .ok r := by
  have hread : readList readInt64 (.array (r.locals.map .int)) = .ok r.locals := by
    apply readList_array
    rw [mapM_map_ok fun n hn => readInt64_int (hlocals n hn), List.map_id']
  rw [readRule, ofRule, readRecord_ofNumbered _ (by simp) (by simp),
    applyFields_cons rfl (readText_string "" r.path), applyFields_cons rfl (readInt64_int hfunc),
    applyFields_cons rfl (readInt64_int hpage), applyFields_cons rfl (readInt64_int hparent),
    applyFields_omitIf rfl (fun _ => hread) _ _ (fun h => by rw [List.isEmpty_iff.mp h]; rfl)]
  rfl

end Wire

namespace Program

/-- What the type of a program leaves open: integers have 64 bits, the table of rules is in the order
of their paths, and constants are well-formed. -/
structure WellFormed (p : Program) : Prop where
  entry : IsInt64 p.entry
  functions : ∀ f ∈ p.functions, IsInt64 f.params ∧ IsInt64 f.maxStack
  constants : ∀ d ∈ p.constants, d.WellFormed
  index : p.ruleIndex.entries.Pairwise fun a b => a.1 < b.1
  indexed : ∀ e ∈ p.ruleIndex.entries, IsInt64 e.2
  pages : ∀ q ∈ p.pages, IsInt64 q.index ∧ (∀ r ∈ q.roots, IsInt64 r) ∧
    ∀ s ∈ q.sites, IsInt64 s.fn ∧ IsInt64 s.site
  rules : ∀ r ∈ p.rules, IsInt64 r.func ∧ IsInt64 r.page ∧ IsInt64 r.parent ∧
    ∀ n ∈ r.locals, IsInt64 n

/-- The same program, constants being compared as values. -/
structure Agrees (p q : Program) : Prop where
  version : p.version = q.version
  functions : p.functions = q.functions
  constants : List.Forall₂ Datum.Agrees p.constants.toList q.constants.toList
  vars : p.vars = q.vars
  entry : p.entry = q.entry
  ruleIndex : p.ruleIndex = q.ruleIndex
  pages : p.pages = q.pages
  rules : p.rules = q.rules

/-- The program as it is stored. -/
def canonical (p : Program) : Program := { p with constants := p.constants.map Datum.canonical }

def indexItem (p : Program) (blanks : Blanks) : Item :=
  if blanks.index && p.ruleIndex.entries.isEmpty then .null
  else .ofFields (p.ruleIndex.entries.map fun e => (e.1, .int e.2))

def item (p : Program) (blanks : Blanks) (is : List Item) : Item :=
  .ofNumbered
    [(1, some (.int p.version)),
      (2, some (listOr blanks.functions p.functions.toList.zipIdx fun (f, n) => ofFunction blanks f n)),
      (3, some (listOr blanks.constants is id)), (4, some (listOr blanks.vars p.vars .string)),
      (5, some (.int p.entry)), (6, some (p.indexItem blanks)),
      (7, some (listOr blanks.pages p.pages.zipIdx fun (q, n) => ofPage blanks q n)),
      (8, some (listOr blanks.rules p.rules ofRule))]

theorem file_eq_ok {p : Program} {blanks : Blanks} {i : Item} :
    p.file blanks = .ok i ↔
      ∃ is, List.Forall₂ (fun d i => ofDatum d = .ok i) p.constants.toList is ∧
        i = .ofNumbered [(1, some (.string magic)), (2, some (p.item blanks is))] := by
  unfold file ofProgram
  rw [ofItems_eq]
  simp only [← mapM_eq_ok_iff]
  cases p.constants.toList.mapM ofDatum with
  | error e => simp [bind, Except.bind]
  | ok is =>
    constructor
    · intro h
      cases h
      exact ⟨is, rfl, rfl⟩
    · rintro ⟨is', his, rfl⟩
      cases his
      rfl

theorem exists_encode_iff (p : Program) (codec : Codec) (blanks : Blanks) :
    (∃ bytes, p.encode codec blanks = .ok bytes) ↔
      ∀ d ∈ p.constants, ∀ x ∈ d.parts, x.isTransient = false := by
  have hfile : (∃ bytes, p.encode codec blanks = .ok bytes) ↔ ∃ i, p.file blanks = .ok i := by
    rw [encode]
    cases p.file blanks <;> simp [Except.map]
  rw [hfile]
  simp only [file_eq_ok]
  constructor
  · rintro ⟨_, is, his, _⟩ d hd
    exact (exists_ofDatum_iff d).mp (exists_forall₂_iff.mp ⟨is, his⟩ d (Array.mem_toList_iff.mpr hd))
  · intro h
    obtain ⟨is, his⟩ := exists_forall₂_iff.mpr fun d (hd : d ∈ p.constants.toList) =>
      (exists_ofDatum_iff d).mpr (h d (Array.mem_toList_iff.mp hd))
    exact ⟨_, is, his, rfl⟩

theorem readIndex_indexItem {p : Program} (h : p.WellFormed) (blanks : Blanks) :
    readIndex (p.indexItem blanks) = .ok p.ruleIndex := by
  unfold indexItem
  split
  · rename_i hempty
    have hentries : p.ruleIndex.entries = [] :=
      List.isEmpty_iff.mp (Bool.and_eq_true_iff.mp hempty).2
    have hindex : p.ruleIndex = {} := congrArg Fields.mk hentries
    rw [hindex]
    rfl
  · exact readIndex_ofFields h.indexed h.index

theorem readList_zipIdx {α : Type} {read : Item → Except ReadError α} {f : α × Nat → Item}
    (blank : Bool) {xs : List α} (h : ∀ x ∈ xs, ∀ n, read (f (x, n)) = .ok x) :
    readList read (listOr blank xs.zipIdx f) = .ok xs := by
  rw [readList_listOr blank (g := Prod.fst) fun x hx => h x.1 (List.fst_mem_of_mem_zipIdx hx) x.2]
  simp

theorem readConstants {p : Program} {is : List Item} {n : Nat} (h : p.WellFormed) (blank : Bool)
    (his : List.Forall₂ (fun d i => ofDatum d = .ok i) p.constants.toList is)
    (hfits : (listOr blank is id).fits n) (hn : 0 < n) :
    readList readDatum (listOr blank is id) = .ok (p.constants.toList.map Datum.canonical) := by
  have hitems : ∀ i ∈ is, i.fits (n + 1) := by
    intro i hi
    have hne : is.isEmpty = false := List.isEmpty_eq_false_iff.mpr (List.ne_nil_of_mem hi)
    simp only [listOr, hne, Bool.and_false, Bool.false_eq_true, if_false, List.map_id] at hfits
    exact Item.fits_array hfits i hi
  have hread : List.Forall₂ (fun i d => readDatum i = .ok d) is
      (p.constants.toList.map Datum.canonical) :=
    forall₂_read his hitems fun d hd i hi hfits =>
      readDatumTo_ofDatum d _ (n + 1) i hi (h.constants d (Array.mem_toList_iff.mp hd)) hfits (by omega)
  unfold listOr
  split
  · rename_i hblank
    rw [List.isEmpty_iff.mp (Bool.and_eq_true_iff.mp hblank).2, List.forall₂_nil_left_iff] at hread
    rw [hread]
    rfl
  · rw [List.map_id]
    exact readList_array (mapM_eq_ok_iff.mpr hread)

theorem readProgram_item {p : Program} {blanks : Blanks} {is : List Item} {n : Nat} (h : p.WellFormed)
    (hversion : IsInt64 p.version)
    (his : List.Forall₂ (fun d i => ofDatum d = .ok i) p.constants.toList is)
    (hfits : (p.item blanks is).fits n) : readProgram (p.item blanks is) = .ok p.canonical := by
  have hfunctions : readList readFunction (listOr blanks.functions p.functions.toList.zipIdx
      fun (f, n) => ofFunction blanks f n) = .ok p.functions.toList :=
    readList_zipIdx _ fun f hf n =>
      readFunction_ofFunction blanks n (h.functions f (Array.mem_toList_iff.mp hf)).1
        (h.functions f (Array.mem_toList_iff.mp hf)).2
  have hconstants := readConstants h blanks.constants his
    ((Item.fits_ofNumbered hfits).2 3 _ (by simp)) (Nat.succ_pos n)
  have hpages : readList readPage (listOr blanks.pages p.pages.zipIdx
      fun (q, n) => ofPage blanks q n) = .ok p.pages :=
    readList_zipIdx _ fun q hq n =>
      readPage_ofPage blanks n (h.pages q hq).1 (h.pages q hq).2.1 (h.pages q hq).2.2
  have hrules : readList readRule (listOr blanks.rules p.rules ofRule) = .ok p.rules :=
    readList_listOr_self _ fun r hr => by
      obtain ⟨hfunc, hpage, hparent, hlocals⟩ := h.rules r hr
      exact readRule_ofRule hfunc hpage hparent hlocals
  rw [readProgram, item, readRecord_ofNumbered _ (by simp) (by simp),
    applyFields_cons rfl (readInt64_int hversion), applyFields_cons rfl hfunctions,
    applyFields_cons rfl hconstants,
    applyFields_cons rfl (readList_listOr_self _ fun v _ => readText_string "" v),
    applyFields_cons rfl (readInt64_int h.entry), applyFields_cons rfl (readIndex_indexItem h blanks),
    applyFields_cons rfl hpages, applyFields_cons rfl hrules]
  simp only [applyFields, canonical, Array.toArray_toList, ← Array.toList_map]

theorem agrees_canonical (p : Program) (h : ∀ d ∈ p.constants, ∀ x ∈ d.parts, x.isTransient = false) :
    p.Agrees p.canonical := by
  refine ⟨rfl, rfl, ?_, rfl, rfl, rfl, rfl, rfl⟩
  rw [canonical, Array.toList_map]
  exact Datum.forall₂_map fun d hd => d.agrees_canonical (h d (Array.mem_toList_iff.mp hd))

theorem decode_write {p : Program} {codec : Codec} {blanks : Blanks} {i : Item} (h : p.WellFormed)
    (hcodec : codec.Faithful) (hversion : p.version = currentVersion) (hi : p.file blanks = .ok i)
    (hfits : i.fits 0) : decode codec (codec.write i) = .ok p.canonical := by
  obtain ⟨is, his, rfl⟩ := file_eq_ok.mp hi
  have hint : IsInt64 p.version := by
    rw [hversion]
    exact ⟨by decide, by decide⟩
  have hitem : (p.item blanks is).fits 1 := (Item.fits_ofNumbered hfits).2 2 _ (by simp)
  have hread := readProgram_item h hint his hitem
  have hfile : readFile (.ofNumbered [(1, some (.string magic)), (2, some (p.item blanks is))]) =
      .ok { magic := magic, program := some (p.canonical, .ofItem (p.item blanks is)) } := by
    rw [readFile, readRecord_ofNumbered _ (by simp) (by simp),
      applyFields_cons rfl (readText_string "" magic)]
    have hnull : isNull (p.item blanks is) = false := rfl
    simp [applyFields, hnull, hread, bind, Except.bind, pure, Except.pure]
  have hcheck : p.canonical.checkVersion = .ok () := by
    rw [checkVersion, canonical, if_pos hversion]
  rw [decode, decodeFile, hcodec _ hfits]
  simp [hfile, hcheck, Functor.map, Except.map]

/-- A program is written unless a constant holds, at any depth, a value that only exists while a brain
runs; within the limits of the format, what was written is read back as the same program. This is so for
any way to write items that reads back what it has written. -/
theorem decode_encode (p : Program) (codec : Codec) (blanks : Blanks) (h : p.WellFormed)
    (hcodec : codec.Faithful) (hversion : p.version = currentVersion) :
    ((∃ e, p.encode codec blanks = .error e) ↔ ∃ d ∈ p.constants, ∃ x ∈ d.parts, x.isTransient) ∧
      ((∀ i, p.file blanks = .ok i → i.fits 0) →
        ∀ bytes, p.encode codec blanks = .ok bytes → ∃ q, decode codec bytes = .ok q ∧ p.Agrees q) := by
  have hok := exists_encode_iff p codec blanks
  constructor
  · cases hencode : p.encode codec blanks with
    | ok bytes =>
      have hnone := hok.mp ⟨bytes, hencode⟩
      simp only [reduceCtorEq, exists_false, false_iff, not_exists, not_and]
      intro d hd x hx
      simp [hnone d hd x hx]
    | error e =>
      simp only [Except.error.injEq, exists_eq', true_iff]
      by_contra hnone
      obtain ⟨bytes, hbytes⟩ := hok.mpr fun d hd x hx =>
        Bool.eq_false_iff.mpr fun htransient => hnone ⟨d, hd, x, hx, htransient⟩
      rw [hencode] at hbytes
      cases hbytes
  · intro hlimits bytes hbytes
    have hnone := hok.mp ⟨bytes, hbytes⟩
    rw [encode] at hbytes
    cases hfile : p.file blanks with
    | error e =>
      rw [hfile] at hbytes
      cases hbytes
    | ok i =>
      rw [hfile] at hbytes
      cases hbytes
      exact ⟨p.canonical, decode_write h hcodec hversion hfile (hlimits i hfile),
        p.agrees_canonical hnone⟩

/-- A program whose constants hold values of every kind that is written, one in the other. -/
def storedProgram : Program :=
  { version := currentVersion
    functions := #[{ name := "p/0", code := #[.of .pushConst 0, .of .jump (-1)], maxStack := 1 }]
    constants := #[.map "m"
      [(.string "k", .list "l" [.scalar (.number (-0.0)), .scalar (.number (0.0 / 0.0))]),
        (.number 2.5, .struct "s" [("x", .scalar .nil), ("y", .scalar (.bool true))])]]
    vars := ["v"]
    ruleIndex := ⟨[("p/0", 0)]⟩
    pages := [{ id := "p", name := "p", roots := [0], sites := [{ fn := 3, site := 1 }] }]
    rules := [{ path := "p/0", parent := -1 }] }

theorem wellFormed_storedProgram : storedProgram.WellFormed :=
  ⟨by decide, by decide, by decide, by decide, by decide, by decide, by decide⟩

theorem fits_storedProgram : ∀ i, storedProgram.file {} = .ok i → i.fits 0 := by
  intro i hi
  cases hi
  -- The floats decide which fields are left out; once they are settled every field is explicit.
  have hnil : ((0.0 : Float) == 0.0) = true := by decide
  have hzero : ((-0.0 : Float) == 0.0) = true := by decide
  have hnan : ((0.0 / 0.0 : Float) == 0.0) = false := by decide
  have htrue : ((1.0 : Float) == 0.0) = false := by decide
  have hkey : ((2.5 : Float) == 0.0) = false := by decide
  simp [storedProgram, Item.ofNumbered, Item.fits, itemsFit, entriesFit, Item.fits_string,
    Item.fits_ofFields, omitIf, listOr, ofFunction, ofPage, ofRule, ofInstr, Item.int, isReadable,
    maxCount, maxNesting, hnil, hzero, hnan, htrue, hkey, Scalar.number, Scalar.nil, Scalar.bool,
    Scalar.string, Instr.of, magic, currentVersion]
  decide

theorem decode_encode_storedProgram :
    ∃ bytes q, storedProgram.encode Cbor.canonical = .ok bytes ∧ decode Cbor.canonical bytes = .ok q ∧
      storedProgram.Agrees q := by
  obtain ⟨bytes, hbytes⟩ := (exists_encode_iff storedProgram Cbor.canonical {}).mpr (by decide +kernel)
  obtain ⟨q, hq⟩ := (decode_encode storedProgram Cbor.canonical {} wellFormed_storedProgram
    canonical_faithful rfl).2 fits_storedProgram bytes hbytes
  exact ⟨bytes, q, hbytes, hq⟩

end Program

end TileMind
