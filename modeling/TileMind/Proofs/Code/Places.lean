import TileMind.Code.Compile
import TileMind.Proofs.Decimal.General

/-!
# TileMind.Proofs.Code.Places

The rules of a brain as its definition orders them: a rule before its children, the children in turn,
page after page. Each rule is listed with its path, its number and the numbers of the rules around it.

* `BrainDef.places` is the list.
* `BrainDef.number_places`: the number of a rule is its position.
* `BrainDef.parent_places`: the parent of a rule comes before it, and has it among its children.
* `BrainDef.childNumbers_places`: the numbers of the children of a rule are those of the rules of
  which it is the parent.
* `BrainDef.nodup_paths`: no two rules share a path.
-/

namespace TileMind

/-- A rule where it stands in a brain. `outer` are the numbers of the rules around it, nearest
first. -/
structure Place where
  path : String
  page : Nat
  number : Nat
  outer : List Nat
  rule : RuleDef

def Place.parent (q : Place) : Option Nat := q.outer.head?

mutual

def RuleDef.count : RuleDef → Nat
  | ⟨_, _, _, children⟩ => countRules children + 1
termination_by structural r => r

def countRules : List RuleDef → Nat
  | [] => 0
  | r :: rest => r.count + countRules rest
termination_by structural rs => rs

end

mutual

/-- A rule that has the number `n`, and everything below it. -/
def RuleDef.places (page : Nat) : RuleDef → (path : String) → (outer : List Nat) → (n : Nat) →
    List Place
  | ⟨whenRow, doRow, declared, children⟩, path, outer, n =>
    ⟨path, page, n, outer, ⟨whenRow, doRow, declared, children⟩⟩ ::
      placesBelow page children path 0 (n :: outer) (n + 1)
termination_by structural r => r

/-- The rules below a path from the `i`-th one on, numbered from `n` on. -/
def placesBelow (page : Nat) : List RuleDef → (path : String) → (i : Nat) → (outer : List Nat) →
    (n : Nat) → List Place
  | [], _, _, _, _ => []
  | r :: rest, path, i, outer, n =>
    r.places page (childPath path i) outer n ++
      placesBelow page rest path (i + 1) outer (n + r.count)
termination_by structural rs => rs

end

def pagePlaces : List PageDef → (i : Nat) → (n : Nat) → List Place
  | [], _, _ => []
  | d :: rest, i, n =>
    placesBelow i d.rules (Decimal.digitString i) 0 [] n ++
      pagePlaces rest (i + 1) (n + countRules d.rules)

def BrainDef.places (d : BrainDef) : List Place := pagePlaces d.pages 0 0

/-- The numbers of rules that follow each other below the same rule, the first one being `n`. -/
def childNumbers : List RuleDef → (n : Nat) → List Nat
  | [], _ => []
  | r :: rest, n => n :: childNumbers rest (n + r.count)

/-! ## Numbers -/

mutual

theorem RuleDef.number_places (page : Nat) : ∀ (r : RuleDef) (path : String) (outer : List Nat)
    (n : Nat), (r.places page path outer n).map Place.number = List.range' n r.count
  | ⟨_, _, _, children⟩, path, outer, n => by
    rw [RuleDef.places, RuleDef.count, List.range'_succ, List.map_cons,
      number_placesBelow page children]
termination_by structural r => r

theorem number_placesBelow (page : Nat) : ∀ (rs : List RuleDef) (path : String) (i : Nat)
    (outer : List Nat) (n : Nat),
    (placesBelow page rs path i outer n).map Place.number = List.range' n (countRules rs)
  | [], _, _, _, _ => rfl
  | r :: rest, path, i, outer, n => by
    rw [placesBelow, countRules, List.map_append, r.number_places, number_placesBelow page rest,
      List.range'_append_1]
termination_by structural rs => rs

end

theorem number_pagePlaces (ds : List PageDef) (i n : Nat) :
    (pagePlaces ds i n).map Place.number = List.range' n (pagePlaces ds i n).length := by
  induction ds generalizing i n with
  | nil => rfl
  | cons d ds ih =>
    have hlen : (placesBelow i d.rules (Decimal.digitString i) 0 [] n).length = countRules d.rules := by
      simpa using congrArg List.length
        (number_placesBelow i d.rules (Decimal.digitString i) 0 [] n)
    rw [pagePlaces, List.map_append, number_placesBelow, ih, List.length_append, hlen,
      List.range'_append_1]

theorem RuleDef.length_places (page : Nat) (r : RuleDef) (path : String) (outer : List Nat) (n : Nat) :
    (r.places page path outer n).length = r.count := by
  simpa using congrArg List.length (r.number_places page path outer n)

theorem length_placesBelow (page : Nat) (rs : List RuleDef) (path : String) (i : Nat)
    (outer : List Nat) (n : Nat) : (placesBelow page rs path i outer n).length = countRules rs := by
  simpa using congrArg List.length (number_placesBelow page rs path i outer n)

theorem number_of_mem_places {page : Nat} {r : RuleDef} {path : String} {outer : List Nat}
    {n : Nat} {q : Place} (h : q ∈ r.places page path outer n) :
    n ≤ q.number ∧ q.number < n + r.count := by
  have := List.mem_map_of_mem (f := Place.number) h
  rwa [r.number_places, List.mem_range'_1] at this

theorem number_of_mem_placesBelow {page : Nat} {rs : List RuleDef} {path : String} {i : Nat}
    {outer : List Nat} {n : Nat} {q : Place} (h : q ∈ placesBelow page rs path i outer n) :
    n ≤ q.number ∧ q.number < n + countRules rs := by
  have := List.mem_map_of_mem (f := Place.number) h
  rwa [number_placesBelow, List.mem_range'_1] at this

theorem BrainDef.number_places (d : BrainDef) {k : Nat} {q : Place} (h : d.places[k]? = some q) :
    q.number = k := by
  have hmap : (d.places.map Place.number)[k]? = some q.number := by
    rw [List.getElem?_map, h, Option.map_some]
  rw [BrainDef.places, number_pagePlaces, List.getElem?_range'] at hmap
  · simpa using hmap.symm
  · exact (List.getElem?_eq_some_iff.mp h).1

/-! ## Parents -/

/-- The rule `q` is the `i`-th child of `parent`. -/
structure Place.IsChild (q parent : Place) (i : Nat) : Prop where
  outer : q.outer = parent.number :: parent.outer
  lt : parent.number < q.number
  page : q.page = parent.page
  path : q.path = childPath parent.path i
  rule : parent.rule.children[i]? = some q.rule

mutual

theorem RuleDef.parent_of_mem_places {page : Nat} : ∀ {r : RuleDef} {path : String}
    {outer : List Nat} {n : Nat} {q : Place}, q ∈ r.places page path outer n →
    q = ⟨path, page, n, outer, r⟩ ∨ ∃ p ∈ r.places page path outer n, ∃ i, q.IsChild p i
  | ⟨whenRow, doRow, declared, children⟩, path, outer, n, q, h => by
    rw [RuleDef.places, List.mem_cons] at h
    rcases h with rfl | h
    · exact .inl rfl
    · right
      have hlt : n < q.number := (number_of_mem_placesBelow h).1
      rw [RuleDef.places]
      rcases parent_of_mem_placesBelow h with ⟨j, hpath, hpage, hrule, houter⟩ | ⟨p, hp, i, hchild⟩
      · refine ⟨_, List.mem_cons_self, j, ⟨houter, hlt, hpage, ?_, hrule⟩⟩
        rw [hpath, Nat.zero_add]
      · exact ⟨p, List.mem_cons_of_mem _ hp, i, hchild⟩
termination_by structural r => r

theorem parent_of_mem_placesBelow {page : Nat} : ∀ {rs : List RuleDef} {path : String} {i : Nat}
    {outer : List Nat} {n : Nat} {q : Place}, q ∈ placesBelow page rs path i outer n →
    (∃ j, q.path = childPath path (i + j) ∧ q.page = page ∧ rs[j]? = some q.rule ∧ q.outer = outer) ∨
      ∃ p ∈ placesBelow page rs path i outer n, ∃ i, q.IsChild p i
  | [], _, _, _, _, q, h => by cases h
  | r :: rest, path, i, outer, n, q, h => by
    rw [placesBelow, List.mem_append] at h
    rw [placesBelow]
    rcases h with h | h
    · rcases r.parent_of_mem_places h with rfl | ⟨p, hp, j, hchild⟩
      · exact .inl ⟨0, rfl, rfl, rfl, rfl⟩
      · exact .inr ⟨p, List.mem_append_left _ hp, j, hchild⟩
    · rcases parent_of_mem_placesBelow h with ⟨j, hpath, hrest⟩ | ⟨p, hp, j, hchild⟩
      · exact .inl ⟨j + 1, by rw [hpath, Nat.add_assoc, Nat.add_comm 1 j], hrest⟩
      · exact .inr ⟨p, List.mem_append_right _ hp, j, hchild⟩
termination_by structural rs => rs

end

theorem parent_of_mem_pagePlaces {ds : List PageDef} {i n : Nat} {q : Place}
    (h : q ∈ pagePlaces ds i n) :
    (q.outer = [] ∧ ∃ k d j, ds[k]? = some d ∧ d.rules[j]? = some q.rule ∧ q.page = i + k ∧
      q.path = childPath (Decimal.digitString (i + k)) j) ∨
      ∃ p ∈ pagePlaces ds i n, ∃ i, q.IsChild p i := by
  induction ds generalizing i n with
  | nil => cases h
  | cons d ds ih =>
    rw [pagePlaces, List.mem_append] at h
    rw [pagePlaces]
    rcases h with h | h
    · rcases parent_of_mem_placesBelow h with ⟨j, hpath, hpage, hrule, houter⟩ | ⟨p, hp, j, hchild⟩
      · refine .inl ⟨houter, 0, d, j, rfl, hrule, hpage, ?_⟩
        rw [hpath, Nat.zero_add]
        rfl
      · exact .inr ⟨p, List.mem_append_left _ hp, j, hchild⟩
    · rcases ih h with ⟨houter, k, d', j, hd, hrule, hpage, hpath⟩ | ⟨p, hp, j, hchild⟩
      · refine .inl ⟨houter, k + 1, d', j, hd, hrule, by omega, ?_⟩
        rw [hpath, Nat.add_assoc, Nat.add_comm 1 k]
      · exact .inr ⟨p, List.mem_append_right _ hp, j, hchild⟩

/-- A rule is a root rule of its page, or it stands below a rule that comes before it. -/
theorem BrainDef.parent_places {d : BrainDef} {q : Place} (h : q ∈ d.places) :
    (q.outer = [] ∧ ∃ page j, d.pages[q.page]? = some page ∧ page.rules[j]? = some q.rule ∧
      q.path = childPath (Decimal.digitString q.page) j) ∨
      ∃ p ∈ d.places, ∃ i, q.IsChild p i := by
  rcases parent_of_mem_pagePlaces h with ⟨houter, k, page, j, hd, hrule, hpage, hpath⟩ | hchild
  · rw [Nat.zero_add] at hpage hpath
    subst hpage
    exact .inl ⟨houter, page, j, hd, hrule, hpath⟩
  · exact .inr hchild

/-! ## Children -/

/-- Whether a rule is a child of the rule with the given number, or a root rule. -/
def Place.isBelow (parent : Option Nat) (q : Place) : Bool := q.parent = parent

theorem Place.isBelow_iff {parent : Option Nat} {q : Place} :
    q.isBelow parent = true ↔ q.outer.head? = parent :=
  decide_eq_true_iff

mutual

/-- Within a tree that starts with number `n`, only the rule itself can be right below a rule with a
smaller number. -/
theorem RuleDef.isBelow_places (page : Nat) (parent : Option Nat) : ∀ (r : RuleDef) (path : String)
    (outer : List Nat) (n : Nat), (∀ k ∈ parent, k < n) →
    ((r.places page path outer n).filter (Place.isBelow parent)).map Place.number =
      if outer.head? = parent then [n] else []
  | ⟨_, _, _, children⟩, path, outer, n, hk => by
    have hbelow := isBelow_placesBelow page parent children path 0 (n :: outer) (n + 1)
      (fun k hp => Nat.lt_succ_of_lt (hk k hp))
    have hne : (n :: outer).head? ≠ parent := by
      rintro rfl
      exact absurd (hk n rfl) (Nat.lt_irrefl n)
    rw [if_neg hne, List.map_eq_nil_iff] at hbelow
    rw [RuleDef.places, List.filter_cons, hbelow]
    by_cases ho : outer.head? = parent <;> simp [Place.isBelow, Place.parent, ho]
termination_by structural r => r

theorem isBelow_placesBelow (page : Nat) (parent : Option Nat) : ∀ (rs : List RuleDef)
    (path : String) (i : Nat) (outer : List Nat) (n : Nat), (∀ k ∈ parent, k < n) →
    ((placesBelow page rs path i outer n).filter (Place.isBelow parent)).map Place.number =
      if outer.head? = parent then childNumbers rs n else []
  | [], _, _, outer, _, _ => by
    rw [placesBelow, childNumbers]
    split <;> rfl
  | r :: rest, path, i, outer, n, hk => by
    rw [placesBelow, List.filter_append, List.map_append, r.isBelow_places page parent _ _ _ hk,
      isBelow_placesBelow page parent rest _ _ _ _ (fun k hp => Nat.lt_add_right _ (hk k hp)), childNumbers]
    split <;> rfl
termination_by structural rs => rs

end

/-- No rule stands right below one that comes after its whole tree. -/
theorem filter_isBelow_places {page : Nat} {r : RuleDef} {path : String} {outer : List Nat} {n k : Nat}
    (houter : ∀ m ∈ outer, m < n) (hk : n + r.count ≤ k) :
    (r.places page path outer n).filter (Place.isBelow (some k)) = [] := by
  rw [List.filter_eq_nil_iff]
  intro q hq hbelow
  rw [Place.isBelow_iff] at hbelow
  rcases r.parent_of_mem_places hq with rfl | ⟨p, hp, i, hchild⟩
  · have := houter k (List.mem_of_mem_head? hbelow)
    omega
  · rw [hchild.outer, List.head?_cons, Option.some.injEq] at hbelow
    have := (number_of_mem_places hp).2
    omega

theorem filter_isBelow_placesBelow {page : Nat} {rs : List RuleDef} {path : String} {i : Nat}
    {outer : List Nat} {n k : Nat} (houter : ∀ m ∈ outer, m < n) (hk : n + countRules rs ≤ k) :
    (placesBelow page rs path i outer n).filter (Place.isBelow (some k)) = [] := by
  induction rs generalizing i n with
  | nil => rfl
  | cons r rest ih =>
    rw [countRules] at hk
    rw [placesBelow, List.filter_append, filter_isBelow_places houter (by omega),
      ih (fun m hm => by have := houter m hm; omega) (by omega), List.nil_append]

/-- The numbers of the children of every rule in a list are those of the rules right below it. -/
def ListsChildren (places : List Place) : Prop :=
  ∀ q ∈ places, (places.filter (Place.isBelow (some q.number))).map Place.number =
    childNumbers q.rule.children (q.number + 1)

theorem ListsChildren.append {ps qs : List Place} (hps : ListsChildren ps) (hqs : ListsChildren qs)
    (hpq : ∀ q ∈ ps, qs.filter (Place.isBelow (some q.number)) = [])
    (hqp : ∀ q ∈ qs, ps.filter (Place.isBelow (some q.number)) = []) : ListsChildren (ps ++ qs) := by
  intro q hq
  rw [List.filter_append, List.map_append]
  rcases List.mem_append.mp hq with hq | hq
  · rw [hps q hq, hpq q hq, List.map_nil, List.append_nil]
  · rw [hqp q hq, hqs q hq, List.map_nil, List.nil_append]

mutual

theorem RuleDef.listsChildren_places (page : Nat) : ∀ (r : RuleDef) (path : String)
    (outer : List Nat) (n : Nat), (∀ m ∈ outer, m < n) → ListsChildren (r.places page path outer n)
  | ⟨whenRow, doRow, declared, children⟩, path, outer, n, houter => by
    rw [RuleDef.places]
    -- The rule itself stands below none of the tree.
    have hroot (k : Nat) (hk : n ≤ k) :
        Place.isBelow (some k) ⟨path, page, n, outer, ⟨whenRow, doRow, declared, children⟩⟩ = false := by
      rw [Bool.eq_false_iff, ne_eq, Place.isBelow_iff]
      intro hhead
      have := houter k (List.mem_of_mem_head? hhead)
      omega
    intro q hq
    rcases List.mem_cons.mp hq with rfl | hq
    · rw [List.filter_cons, hroot n le_rfl]
      simpa using isBelow_placesBelow page (some n) children path 0 (n :: outer) (n + 1) (by simp)
    · rw [List.filter_cons, hroot q.number (Nat.le_of_succ_le (number_of_mem_placesBelow hq).1)]
      refine listsChildren_placesBelow page children path 0 (n :: outer) (n + 1) ?_ q hq
      intro m hm
      rcases List.mem_cons.mp hm with rfl | hm
      · omega
      · have := houter m hm
        omega
termination_by structural r => r

theorem listsChildren_placesBelow (page : Nat) : ∀ (rs : List RuleDef) (path : String) (i : Nat)
    (outer : List Nat) (n : Nat), (∀ m ∈ outer, m < n) →
    ListsChildren (placesBelow page rs path i outer n)
  | [], _, _, _, _, _ => by
    intro q hq
    cases hq
  | r :: rest, path, i, outer, n, houter => by
    have houter' : ∀ m ∈ outer, m < n + r.count := fun m hm => by
      have := houter m hm
      omega
    rw [placesBelow]
    refine .append (r.listsChildren_places page _ outer n houter)
      (listsChildren_placesBelow page rest path (i + 1) outer _ houter') ?_ ?_
    · intro q hq
      have hbelow := isBelow_placesBelow page (some q.number) rest path (i + 1) outer
        (n + r.count) (by simpa using (number_of_mem_places hq).2)
      have hne : outer.head? ≠ some q.number := fun hhead => by
        have := houter _ (List.mem_of_mem_head? hhead)
        have := (number_of_mem_places hq).1
        omega
      rwa [if_neg hne, List.map_eq_nil_iff] at hbelow
    · intro q hq
      exact filter_isBelow_places houter (number_of_mem_placesBelow hq).1
termination_by structural rs => rs

end

theorem isBelow_pagePlaces {k : Nat} (ds : List PageDef) (i n : Nat) (hk : k < n) :
    (pagePlaces ds i n).filter (Place.isBelow (some k)) = [] := by
  induction ds generalizing i n with
  | nil => rfl
  | cons d ds ih =>
    have hbelow := isBelow_placesBelow i (some k) d.rules (Decimal.digitString i) 0 [] n
      (by simpa using hk)
    rw [if_neg (by simp), List.map_eq_nil_iff] at hbelow
    rw [pagePlaces, List.filter_append, hbelow, ih (i + 1) _ (by omega), List.nil_append]

theorem le_number_of_mem_pagePlaces {ds : List PageDef} {i n : Nat} {q : Place}
    (h : q ∈ pagePlaces ds i n) : n ≤ q.number := by
  have := List.mem_map_of_mem (f := Place.number) h
  rw [number_pagePlaces, List.mem_range'_1] at this
  exact this.1

theorem listsChildren_pagePlaces (ds : List PageDef) (i n : Nat) :
    ListsChildren (pagePlaces ds i n) := by
  induction ds generalizing i n with
  | nil =>
    intro q hq
    cases hq
  | cons d ds ih =>
    rw [pagePlaces]
    refine .append (listsChildren_placesBelow i d.rules _ 0 [] n (by simp)) (ih _ _) ?_ ?_
    · intro q hq
      exact isBelow_pagePlaces ds _ _ (number_of_mem_placesBelow hq).2
    · intro q hq
      exact filter_isBelow_placesBelow (by simp) (le_number_of_mem_pagePlaces hq)

/-- The children of a rule are numbered as the rules of which it is the parent. -/
theorem BrainDef.childNumbers_places {d : BrainDef} {q : Place} (h : q ∈ d.places) :
    childNumbers q.rule.children (q.number + 1) =
      (d.places.filter (Place.isBelow (some q.number))).map Place.number :=
  (listsChildren_pagePlaces d.pages 0 0 q h).symm

/-! ## Pages -/

mutual

theorem RuleDef.page_of_mem_places {page : Nat} : ∀ {r : RuleDef} {path : String} {outer : List Nat}
    {n : Nat} {q : Place}, q ∈ r.places page path outer n → q.page = page
  | ⟨_, _, _, children⟩, path, outer, n, q, h => by
    rw [RuleDef.places, List.mem_cons] at h
    rcases h with rfl | h
    · rfl
    · exact page_of_mem_placesBelow h
termination_by structural r => r

theorem page_of_mem_placesBelow {page : Nat} : ∀ {rs : List RuleDef} {path : String} {i : Nat}
    {outer : List Nat} {n : Nat} {q : Place}, q ∈ placesBelow page rs path i outer n → q.page = page
  | [], _, _, _, _, q, h => by cases h
  | r :: rest, path, i, outer, n, q, h => by
    rw [placesBelow, List.mem_append] at h
    rcases h with h | h
    · exact r.page_of_mem_places h
    · exact page_of_mem_placesBelow h
termination_by structural rs => rs

end

theorem page_of_mem_pagePlaces {ds : List PageDef} {i n : Nat} {q : Place}
    (h : q ∈ pagePlaces ds i n) : i ≤ q.page := by
  induction ds generalizing i n with
  | nil => cases h
  | cons d ds ih =>
    rw [pagePlaces, List.mem_append] at h
    rcases h with h | h
    · rw [page_of_mem_placesBelow h]
    · have := ih h
      omega

def Place.isRoot (page : Nat) (q : Place) : Bool := q.page = page && q.isBelow none

theorem filter_isRoot_placesBelow (page : Nat) (rs : List RuleDef) (path : String) (i n : Nat) :
    ((placesBelow page rs path i [] n).filter (Place.isRoot page)).map Place.number =
      childNumbers rs n := by
  have hroot := isBelow_placesBelow page none rs path i [] n (by simp)
  rw [List.head?_nil, if_pos rfl] at hroot
  rw [← hroot]
  congr 1
  refine List.filter_congr fun q hq => ?_
  simp [Place.isRoot, page_of_mem_placesBelow hq]

/-! ## Paths -/

/-- A text is a path or continues it after a slash. -/
def Continues (path text : String) : Prop :=
  ∃ rest : List Char, text.toList = path.toList ++ rest ∧ (rest = [] ∨ ∃ more, rest = '/' :: more)

theorem Continues.refl (path : String) : Continues path path := ⟨[], by simp, .inl rfl⟩

theorem toList_childPath (path : String) (i : Nat) :
    (childPath path i).toList = path.toList ++ '/' :: Nat.toDigits 10 i := by
  rw [childPath, String.toList_append, String.toList_append, Decimal.toList_digitString,
    List.append_assoc]
  rfl

theorem Continues.of_childPath {path text : String} {i : Nat} (h : Continues (childPath path i) text) :
    Continues path text := by
  obtain ⟨rest, htext, -⟩ := h
  refine ⟨'/' :: Nat.toDigits 10 i ++ rest, ?_, .inr ⟨_, rfl⟩⟩
  rw [htext, toList_childPath, List.append_assoc]

theorem ne_slash_of_mem_toDigits {n : Nat} {c : Char} (h : c ∈ Nat.toDigits 10 n) : c ≠ '/' := by
  rintro rfl
  exact absurd (Nat.isDigit_of_mem_toDigits (by decide) (by decide) h) (by decide)

/-- What follows the digits of a number tells where they end. -/
theorem digits_eq_of_append {i j : Nat} {s t : List Char} (hs : s = [] ∨ ∃ more, s = '/' :: more)
    (ht : t = [] ∨ ∃ more, t = '/' :: more) (h : Nat.toDigits 10 i ++ s = Nat.toDigits 10 j ++ t) :
    i = j := by
  have htake (n : Nat) (u : List Char) (hu : u = [] ∨ ∃ more, u = '/' :: more) :
      (Nat.toDigits 10 n ++ u).takeWhile (· ≠ '/') = Nat.toDigits 10 n := by
    rw [List.takeWhile_append_of_pos fun c hc => by simpa using ne_slash_of_mem_toDigits hc]
    rcases hu with rfl | ⟨more, rfl⟩ <;> simp
  have hdigits : Nat.toDigits 10 i = Nat.toDigits 10 j := by
    rw [← htake i s hs, ← htake j t ht, h]
  have := congrArg Decimal.natOfDigits hdigits
  rwa [Decimal.natOfDigits_toDigits, Decimal.natOfDigits_toDigits] at this

/-- No text continues the paths of two children. -/
theorem childPath_injective {path text : String} {i j : Nat} (hi : Continues (childPath path i) text)
    (hj : Continues (childPath path j) text) : i = j := by
  obtain ⟨s, hs, hs'⟩ := hi
  obtain ⟨t, ht, ht'⟩ := hj
  rw [hs, toList_childPath, toList_childPath, List.append_assoc, List.append_assoc,
    List.append_cancel_left_eq, List.cons_append, List.cons_append, List.cons.injEq] at ht
  exact digits_eq_of_append hs' ht' ht.2

mutual

theorem RuleDef.continues_places {page : Nat} : ∀ {r : RuleDef} {path : String} {outer : List Nat}
    {n : Nat} {q : Place}, q ∈ r.places page path outer n → Continues path q.path
  | ⟨_, _, _, children⟩, path, outer, n, q, h => by
    rw [RuleDef.places, List.mem_cons] at h
    rcases h with rfl | h
    · exact .refl path
    · obtain ⟨j, -, hj⟩ := continues_placesBelow h
      exact hj.of_childPath
termination_by structural r => r

theorem continues_placesBelow {page : Nat} : ∀ {rs : List RuleDef} {path : String} {i : Nat}
    {outer : List Nat} {n : Nat} {q : Place}, q ∈ placesBelow page rs path i outer n →
    ∃ j, i ≤ j ∧ Continues (childPath path j) q.path
  | [], _, _, _, _, q, h => by cases h
  | r :: rest, path, i, outer, n, q, h => by
    rw [placesBelow, List.mem_append] at h
    rcases h with h | h
    · exact ⟨i, le_rfl, r.continues_places h⟩
    · obtain ⟨j, hij, hj⟩ := continues_placesBelow h
      exact ⟨j, by omega, hj⟩
termination_by structural rs => rs

end

mutual

theorem RuleDef.nodup_paths (page : Nat) : ∀ (r : RuleDef) (path : String) (outer : List Nat)
    (n : Nat), ((r.places page path outer n).map Place.path).Nodup
  | ⟨_, _, _, children⟩, path, outer, n => by
    rw [RuleDef.places, List.map_cons, List.nodup_cons]
    refine ⟨?_, nodup_placesBelow page children path 0 _ _⟩
    intro hmem
    obtain ⟨q, hq, hpath⟩ := List.mem_map.mp hmem
    obtain ⟨j, -, rest, hrest, -⟩ := continues_placesBelow hq
    rw [hpath, toList_childPath, List.append_assoc] at hrest
    have := congrArg List.length hrest
    simp at this
termination_by structural r => r

theorem nodup_placesBelow (page : Nat) : ∀ (rs : List RuleDef) (path : String) (i : Nat)
    (outer : List Nat) (n : Nat), ((placesBelow page rs path i outer n).map Place.path).Nodup
  | [], _, _, _, _ => List.nodup_nil
  | r :: rest, path, i, outer, n => by
    rw [placesBelow, List.map_append]
    refine (r.nodup_paths page _ outer n).append (nodup_placesBelow page rest _ _ _ _) ?_
    intro text hleft hright
    obtain ⟨q, hq, rfl⟩ := List.mem_map.mp hleft
    obtain ⟨q', hq', hpath⟩ := List.mem_map.mp hright
    obtain ⟨j, hij, hj⟩ := continues_placesBelow hq'
    rw [hpath] at hj
    have := childPath_injective (r.continues_places hq) hj
    omega
termination_by structural rs => rs

end

/-- The path of a rule starts with the number of its page. -/
theorem page_of_placesBelow {page : Nat} {rs : List RuleDef} {i : Nat} {outer : List Nat} {n : Nat}
    {q : Place} (h : q ∈ placesBelow page rs (Decimal.digitString page) i outer n) :
    ∃ more, q.path.toList = Nat.toDigits 10 page ++ '/' :: more := by
  obtain ⟨j, -, rest, hrest, -⟩ := continues_placesBelow h
  rw [toList_childPath, Decimal.toList_digitString, List.append_assoc] at hrest
  exact ⟨_, hrest⟩

theorem page_of_pagePlaces {ds : List PageDef} {i n : Nat} {q : Place} (h : q ∈ pagePlaces ds i n) :
    ∃ page more, i ≤ page ∧ q.path.toList = Nat.toDigits 10 page ++ '/' :: more := by
  induction ds generalizing i n with
  | nil => cases h
  | cons d ds ih =>
    rw [pagePlaces, List.mem_append] at h
    rcases h with h | h
    · obtain ⟨more, hmore⟩ := page_of_placesBelow h
      exact ⟨i, more, le_rfl, hmore⟩
    · obtain ⟨page, more, hle, hmore⟩ := ih h
      exact ⟨page, more, by omega, hmore⟩

theorem nodup_pagePlaces (ds : List PageDef) (i n : Nat) :
    ((pagePlaces ds i n).map Place.path).Nodup := by
  induction ds generalizing i n with
  | nil => exact List.nodup_nil
  | cons d ds ih =>
    rw [pagePlaces, List.map_append]
    refine (nodup_placesBelow i d.rules _ 0 [] n).append (ih _ _) ?_
    intro text hleft hright
    obtain ⟨q, hq, rfl⟩ := List.mem_map.mp hleft
    obtain ⟨q', hq', hpath⟩ := List.mem_map.mp hright
    obtain ⟨more, hmore⟩ := page_of_placesBelow hq
    obtain ⟨page, more', hle, hmore'⟩ := page_of_pagePlaces hq'
    rw [hpath, hmore] at hmore'
    have := digits_eq_of_append (.inr ⟨more, rfl⟩) (.inr ⟨more', rfl⟩) hmore'
    omega

theorem BrainDef.nodup_paths (d : BrainDef) : (d.places.map Place.path).Nodup :=
  nodup_pagePlaces d.pages 0 0

end TileMind
