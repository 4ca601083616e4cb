import Mathlib.Data.List.Nodup
import TileMind.Proofs.Brain.WaitTimes

/-!
# TileMind.Proofs.Brain.TimerOrder

Timers under any requests. The timers that were ever added are numbered in turn, so that two of them with
the same handle and the same time are told apart, and a ledger keeps the numbers of those that have been
fired or cancelled. The queue has all the others, by the time at which they are due and, where that is
the same, by their numbers.

* `TimerQueue.fire`, `TimerQueue.cancel`: what is done with the handles of timers.
* `TimerQueue.Sorted.add_eq_insertIdx`: the place of a new timer, as bisection finds it.
* `Ledger.Describes`: the queue holds what the ledger says, in that order; each request keeps it.
* `timers_in_order`: the queue after any requests, and what firing or cancelling does then.
-/

namespace TileMind

variable {W : Type}

/-! ## Bisection -/

/-- The first place from `lo` on, and below `hi`, of which `p` holds, if `p` holds of every later one
too; `hi` if there is none. -/
def bisect (p : Nat → Bool) (lo hi : Nat) : Nat :=
  if lo < hi then
    let middle := (lo + hi) / 2
    if p middle then bisect p lo middle else bisect p (middle + 1) hi
  else lo
termination_by hi - lo

theorem bisect_eq {p : Nat → Bool} {lo hi first : Nat} (hlo : lo ≤ first) (hhi : first ≤ hi)
    (hbefore : ∀ i < first, p i = false) (hafter : ∀ i, first ≤ i → i < hi → p i = true) :
    bisect p lo hi = first := by
  induction lo, hi using bisect.induct p with
  | case1 lo hi hlt middle hp ih =>
    have hmiddle : first ≤ middle := by
      by_contra hlate
      have hno := hbefore middle (Nat.lt_of_not_le hlate)
      rw [hp] at hno
      cases hno
    rw [bisect, if_pos hlt]
    simp only [middle] at hp
    simp only [hp, if_true]
    exact ih hlo hmiddle fun i hi hlast => hafter i hi (by omega)
  | case2 lo hi hlt middle hp ih =>
    have hmiddle : middle < first := by
      by_contra hlate
      exact hp (hafter middle (Nat.le_of_not_lt hlate) (by omega))
    rw [bisect, if_pos hlt]
    simp only [middle] at hp
    simp only [hp]
    exact ih hmiddle hhi hafter
  | case3 lo hi hge =>
    rw [bisect, if_neg hge]
    omega

namespace TimerQueue

/-- Takes the timers that are due from the queue, completes the handle of each with no value, and tells how
many they were. A handle that is gone or completed already stays as it is. -/
def fire (q : TimerQueue) (now : Int) (s : Stage (Mind W)) : Nat × TimerQueue × Stage (Mind W) :=
  ((q.due now).1.length, (q.due now).2, (q.due now).1.foldl Stage.finish s)

/-- Empties the queue and completes the handle of each timer as cancelled. -/
def cancel (q : TimerQueue) (s : Stage (Mind W)) : TimerQueue × Stage (Mind W) :=
  ({}, (q.timers.map Timer.handle).foldl Stage.abandon s)

section

variable {q : TimerQueue} {t : Timer} {timers : List Timer}

theorem insertInto_eq (t : Timer) (timers : List Timer) :
    insertInto t timers = timers.takeWhile (fun x => decide (x.due ≤ t.due)) ++
      t :: timers.dropWhile fun x => decide (x.due ≤ t.due) := by
  induction timers with
  | nil => rfl
  | cons x timers ih =>
    rw [insertInto]
    by_cases hlater : t.due < x.due
    · simp [hlater, Int.not_le.mpr hlater]
    · simp [hlater, Int.not_lt.mp hlater, ih]

theorem insertInto_of_sorted (h : timers.Pairwise fun x y => x.due ≤ y.due) (t : Timer) :
    insertInto t timers = timers.filter (fun x => decide (x.due ≤ t.due)) ++
      t :: timers.filter fun x => decide (t.due < x.due) := by
  obtain ⟨htake, hdrop⟩ := takeWhile_due h t.due
  rw [insertInto_eq, htake, hdrop]

/-- Bisection finds the place of a new timer. -/
theorem Sorted.add_eq_insertIdx (h : q.Sorted) (due : Int) (k : Nat) :
    q.add due k = ⟨q.timers.insertIdx
      (bisect (fun i => decide (due < (q.timers.getD i default).due)) 0 q.timers.length) ⟨due, k⟩⟩ := by
  let early := q.timers.filter fun x => decide (x.due ≤ due)
  let late := q.timers.filter fun x => decide (due < x.due)
  have hsplit : q.timers = early ++ late := by
    obtain ⟨htake, hdrop⟩ := takeWhile_due h due
    rw [← List.takeWhile_append_dropWhile (p := fun x => decide (x.due ≤ due)) (l := q.timers), htake, hdrop]
  have hplace : bisect (fun i => decide (due < (q.timers.getD i default).due)) 0 q.timers.length =
      early.length := by
    refine bisect_eq (Nat.zero_le _) (List.length_filter_le _ _) (fun i hi => ?_) (fun i hi hlast => ?_)
    · have hmem : early[i] ∈ early := List.getElem_mem hi
      have hget : q.timers.getD i default = early[i] := by
        rw [hsplit, List.getD_append _ _ _ _ hi, List.getD_eq_getElem _ _ hi]
      rw [hget]
      simpa using (List.mem_filter.mp hmem).2
    · have hlate : i - early.length < late.length := by
        have hlength := congrArg List.length hsplit
        rw [List.length_append] at hlength
        omega
      have hmem : late[i - early.length] ∈ late := List.getElem_mem hlate
      have hget : q.timers.getD i default = late[i - early.length] := by
        rw [hsplit, List.getD_append_right _ _ _ _ hi, List.getD_eq_getElem _ _ hlate]
      rw [hget]
      exact (List.mem_filter.mp hmem).2
  rw [hplace, TimerQueue.add, insertInto_of_sorted h]
  have hinsert : q.timers.insertIdx early.length ⟨due, k⟩ = early ++ ⟨due, k⟩ :: late := by
    rw [hsplit]
    exact List.modifyTailIdx_add _ 0 early late
  rw [hinsert]

end

end TimerQueue

/-! ## The ledger -/

/-- What is asked of a queue. Handles are completed in whatever table there is by then. -/
inductive TimerRequest (W : Type) where
  | add (due : Int) (handle : Nat)
  | fire (now : Int) (s : Stage (Mind W))
  | cancel (s : Stage (Mind W))

/-- The queue after one more request. -/
def TimerQueue.perform (q : TimerQueue) : TimerRequest W → TimerQueue
  | .add due handle => q.add due handle
  | .fire now s => (q.fire now s).2.1
  | .cancel s => (q.cancel s).1

def TimerQueue.after (requests : List (TimerRequest W)) : TimerQueue := requests.foldl perform {}

/-- All timers that were ever added, in turn, and the numbers of those that have been fired and of those
that have been cancelled, in the order in which that happened. -/
structure Ledger where
  added : List Timer := []
  fired : List Nat := []
  cancelled : List Nat := []

namespace Ledger

variable (l : Ledger)

def timer (i : Nat) : Timer := l.added.getD i default

/-- The numbers of the timers that have been neither fired nor cancelled. -/
def waiting : List Nat :=
  (List.range l.added.length).filter fun i => decide (i ∉ l.fired ∧ i ∉ l.cancelled)

/-- One timer is due before another one, or was added before it and is due at the same time. -/
def Before (i j : Nat) : Prop :=
  (l.timer i).due < (l.timer j).due ∨ (l.timer i).due = (l.timer j).due ∧ i < j

instance (i j : Nat) : Decidable (l.Before i j) := inferInstanceAs (Decidable (_ ∨ _))

/-- The timers that wait, one before the other. -/
def queued : List Nat := l.waiting.mergeSort fun i j => decide (¬l.Before j i)

def due (now : Int) : List Nat := l.queued.filter fun i => decide ((l.timer i).due ≤ now)

def later (now : Int) : List Nat := l.queued.filter fun i => decide (now < (l.timer i).due)

def note : TimerRequest W → Ledger
  | .add due handle => { l with added := l.added ++ [⟨due, handle⟩] }
  | .fire now _ => { l with fired := l.fired ++ l.due now }
  | .cancel _ => { l with cancelled := l.cancelled ++ l.queued }

def of (requests : List (TimerRequest W)) : Ledger := requests.foldl note {}

/-- The queue has the timers that wait, and each of the others has been fired or cancelled once. -/
structure Describes (q : TimerQueue) : Prop where
  timers : q.timers = l.queued.map l.timer
  nodup : (l.fired ++ l.cancelled).Nodup
  bound : ∀ i ∈ l.fired ++ l.cancelled, i < l.added.length

section

variable {l} {q : TimerQueue} {i j k : Nat} {ns : List Nat}

theorem Before.asymm (h : l.Before i j) : ¬l.Before j i := by
  unfold Before at h ⊢
  omega

theorem before_of_ne (h : i ≠ j) (hnot : ¬l.Before j i) : l.Before i j := by
  unfold Before at hnot ⊢
  omega

theorem mem_waiting : i ∈ l.waiting ↔ i < l.added.length ∧ i ∉ l.fired ∧ i ∉ l.cancelled := by
  simp [waiting]

theorem nodup_waiting (l : Ledger) : l.waiting.Nodup := List.nodup_range.filter _

theorem perm_queued (l : Ledger) : l.queued.Perm l.waiting := List.mergeSort_perm _ _

theorem nodup_queued (l : Ledger) : l.queued.Nodup := l.perm_queued.nodup_iff.mpr l.nodup_waiting

theorem mem_queued : i ∈ l.queued ↔ i < l.added.length ∧ i ∉ l.fired ∧ i ∉ l.cancelled :=
  l.perm_queued.mem_iff.trans mem_waiting

theorem pairwise_queued (l : Ledger) : l.queued.Pairwise l.Before := by
  have htrans : ∀ i j k, decide (¬l.Before j i) = true → decide (¬l.Before k j) = true →
      decide (¬l.Before k i) = true := by
    intro i j k hij hjk
    have hij := of_decide_eq_true hij
    have hjk := of_decide_eq_true hjk
    refine decide_eq_true ?_
    unfold Before at hij hjk ⊢
    omega
  have htotal : ∀ i j, (decide (¬l.Before j i) || decide (¬l.Before i j)) = true := by
    intro i j
    by_cases hij : l.Before i j
    · simp [hij.asymm]
    · simp [hij]
  have hsorted := List.pairwise_mergeSort htrans htotal l.waiting
  exact hsorted.imp₂ (fun i j hle hne => before_of_ne hne (of_decide_eq_true hle)) l.nodup_queued

/-- There is one order only in which the timers that wait are one before the other. -/
theorem eq_queued (hperm : ns.Perm l.waiting) (horder : ns.Pairwise l.Before) : ns = l.queued :=
  (hperm.trans l.perm_queued.symm).eq_of_pairwise
    (fun _ _ _ _ hij hji => absurd hji hij.asymm) horder l.pairwise_queued

theorem mem_due {now : Int} : i ∈ l.due now ↔ i ∈ l.queued ∧ (l.timer i).due ≤ now := by simp [due]

theorem mem_later {now : Int} : i ∈ l.later now ↔ i ∈ l.queued ∧ now < (l.timer i).due := by
  simp [later]

/-- Every timer waits, or has been fired or cancelled, and only one of these, once. -/
theorem Describes.parts (h : l.Describes q) :
    (l.queued ++ l.fired ++ l.cancelled).Perm (List.range l.added.length) := by
  refine (List.perm_ext_iff_of_nodup ?_ List.nodup_range).mpr fun i => ?_
  · rw [List.append_assoc, List.nodup_append']
    refine ⟨l.nodup_queued, h.nodup, fun i hi hover => ?_⟩
    obtain ⟨-, hfired, hcancelled⟩ := mem_queued.mp hi
    exact (List.mem_append.mp hover).elim hfired hcancelled
  · rw [List.append_assoc, List.mem_append, mem_queued, List.mem_range]
    constructor
    · rintro (⟨hlt, -⟩ | hover)
      · exact hlt
      · exact h.bound i hover
    · intro hlt
      by_cases hover : i ∈ l.fired ++ l.cancelled
      · exact .inr hover
      · rw [List.mem_append, not_or] at hover
        exact .inl ⟨hlt, hover⟩

theorem Describes.sorted (h : l.Describes q) : q.Sorted := by
  rw [TimerQueue.Sorted, h.timers, List.pairwise_map]
  exact l.pairwise_queued.imp fun hbefore => by
    unfold Before at hbefore
    omega

theorem Describes.due_eq (h : l.Describes q) (now : Int) :
    q.due now = ((l.due now).map fun i => (l.timer i).handle, ⟨(l.later now).map l.timer⟩) := by
  rw [h.sorted.due_eq, h.timers, List.filter_map, List.filter_map, List.map_map]
  rfl

/-! ## Requests -/

theorem timer_add (t : Timer) (h : i < l.added.length) :
    ({ l with added := l.added ++ [t] } : Ledger).timer i = l.timer i :=
  List.getD_append _ _ _ _ h

theorem timer_added (l : Ledger) (t : Timer) :
    ({ l with added := l.added ++ [t] } : Ledger).timer l.added.length = t := by
  simp [timer]

/-- A new timer waits behind those that are not due later. -/
theorem queued_add (h : l.Describes q) (t : Timer) :
    ({ l with added := l.added ++ [t] } : Ledger).queued =
      l.due t.due ++ l.added.length :: l.later t.due := by
  let l' : Ledger := { l with added := l.added ++ [t] }
  have htimer : ∀ i ∈ l.queued, l'.timer i = l.timer i := fun i hi => timer_add t (mem_queued.mp hi).1
  have hnew : l'.timer l.added.length = t := l.timer_added t
  have hnone : l.added.length ∉ l.fired ++ l.cancelled := fun hmem => Nat.lt_irrefl _ (h.bound _ hmem)
  have hlater : l.later t.due = l.queued.filter fun i => !decide ((l.timer i).due ≤ t.due) := by
    rw [later]
    refine List.filter_congr fun i _ => ?_
    rw [Bool.eq_iff_iff]
    simp
  symm
  refine eq_queued ?_ ?_
  · have hwaiting : l'.waiting = l.waiting ++ [l.added.length] := by
      rw [List.mem_append, not_or] at hnone
      simp [waiting, l', List.range_succ, List.filter_append, hnone]
    have hparts : (l.due t.due ++ l.later t.due).Perm l.waiting :=
      hlater ▸ (List.filter_append_perm _ _).trans l.perm_queued
    rw [hwaiting]
    exact List.perm_middle.trans ((hparts.cons _).trans (List.perm_append_singleton _ _).symm)
  · have hold : l.queued.Pairwise l'.Before := by
      refine l.pairwise_queued.imp_of_mem fun {i j} hi hj hij => ?_
      rw [Before, htimer i hi, htimer j hj]
      exact hij
    rw [List.pairwise_append, List.pairwise_cons]
    refine ⟨hold.filter _, ⟨fun j hj => ?_, hold.filter _⟩, fun i hi j hj => ?_⟩
    · obtain ⟨hj, hdue⟩ := mem_later.mp hj
      rw [Before, hnew, htimer j hj]
      exact .inl hdue
    · obtain ⟨hi, hdue⟩ := mem_due.mp hi
      rcases List.mem_cons.mp hj with rfl | hj
      · have hlt := (mem_queued.mp hi).1
        rw [Before, hnew, htimer i hi]
        omega
      · obtain ⟨hj, hlate⟩ := mem_later.mp hj
        rw [Before, htimer i hi, htimer j hj]
        omega

theorem Describes.add (h : l.Describes q) (t : Timer) :
    ({ l with added := l.added ++ [t] } : Ledger).Describes (q.add t.due t.handle) where
  timers := by
    have hold : ∀ i ∈ l.queued,
        ({ l with added := l.added ++ [t] } : Ledger).timer i = l.timer i :=
      fun i hi => timer_add t (mem_queued.mp hi).1
    rw [queued_add h, TimerQueue.add, TimerQueue.insertInto_of_sorted h.sorted, h.timers, List.filter_map,
      List.filter_map, List.map_append, List.map_cons, timer_added]
    refine congrArg₂ (· ++ t :: ·) (List.map_congr_left fun i hi => ?_) (List.map_congr_left fun i hi => ?_)
    · exact (hold i (mem_due.mp hi).1).symm
    · exact (hold i (mem_later.mp hi).1).symm
  nodup := h.nodup
  bound i hi := by
    rw [List.length_append]
    exact Nat.lt_add_right _ (h.bound i hi)

theorem Describes.fire (h : l.Describes q) (now : Int) :
    ({ l with fired := l.fired ++ l.due now } : Ledger).Describes (q.due now).2 where
  timers := by
    have hqueued : l.later now = ({ l with fired := l.fired ++ l.due now } : Ledger).queued := by
      refine eq_queued ?_ (l.pairwise_queued.filter _)
      refine (List.perm_ext_iff_of_nodup (l.nodup_queued.filter _) (nodup_waiting _)).mpr fun i => ?_
      refine mem_later.trans ?_
      rw [mem_waiting, List.mem_append, mem_due, mem_queued]
      grind
    rw [h.due_eq, hqueued]
    rfl
  nodup := by
    have hperm : (l.fired ++ l.due now ++ l.cancelled).Perm (l.due now ++ (l.fired ++ l.cancelled)) := by
      rw [← List.append_assoc]
      exact List.perm_append_comm.append_right _
    refine hperm.nodup_iff.mpr (List.nodup_append'.mpr ⟨l.nodup_queued.filter _, h.nodup, ?_⟩)
    intro i hi hover
    obtain ⟨-, hfired, hcancelled⟩ := mem_queued.mp (mem_due.mp hi).1
    exact (List.mem_append.mp hover).elim hfired hcancelled
  bound i hi := by
    rw [List.append_assoc, List.mem_append, List.mem_append] at hi
    rcases hi with hfired | hdue | hcancelled
    · exact h.bound i (List.mem_append_left _ hfired)
    · exact (mem_queued.mp (mem_due.mp hdue).1).1
    · exact h.bound i (List.mem_append_right _ hcancelled)

theorem Describes.cancel (h : l.Describes q) :
    ({ l with cancelled := l.cancelled ++ l.queued } : Ledger).Describes {} where
  timers := by
    have hnone : [] = ({ l with cancelled := l.cancelled ++ l.queued } : Ledger).queued := by
      refine eq_queued ?_ .nil
      refine (List.perm_ext_iff_of_nodup .nil (nodup_waiting _)).mpr fun i => ?_
      rw [mem_waiting, List.mem_append, mem_queued]
      grind
    rw [← hnone]
    rfl
  nodup := by
    rw [← List.append_assoc]
    refine List.nodup_append'.mpr ⟨h.nodup, l.nodup_queued, fun i hover hi => ?_⟩
    obtain ⟨-, hfired, hcancelled⟩ := mem_queued.mp hi
    exact (List.mem_append.mp hover).elim hfired hcancelled
  bound i hi := by
    rw [← List.append_assoc, List.mem_append] at hi
    exact hi.elim (h.bound i) fun hi => (mem_queued.mp hi).1

theorem Describes.perform (h : l.Describes q) (r : TimerRequest W) : (l.note r).Describes (q.perform r) := by
  cases r with
  | add due handle => exact h.add ⟨due, handle⟩
  | fire now s => exact h.fire now
  | cancel s => exact h.cancel

theorem describes_of (requests : List (TimerRequest W)) :
    (Ledger.of requests).Describes (TimerQueue.after requests) := by
  suffices ∀ (requests : List (TimerRequest W)) (l : Ledger) (q : TimerQueue), l.Describes q →
      (requests.foldl note l).Describes (requests.foldl TimerQueue.perform q) by
    refine this requests {} {} ⟨?_, .nil, by simp⟩
    simp [queued, waiting]
  intro requests
  induction requests with
  | nil => exact fun l q h => h
  | cons r requests ih => exact fun l q h => ih _ _ (h.perform r)

end

end Ledger

/-- The queue after any requests: the timers that wait are in it, each before those that are due later and
those that were added later and are due at the same time, and each of the others has been fired or
cancelled, once. Bisection finds the place of a new timer. Firing takes exactly those that are due, in their
order, and tells their number, whatever has become of their handles: a handle that is pending is completed,
and no other handle changes. -/
theorem timers_in_order (requests : List (TimerRequest W)) :
    let q := TimerQueue.after requests
    let l := Ledger.of requests
    q.timers = l.queued.map l.timer ∧ l.queued.Pairwise l.Before ∧
    (l.queued ++ l.fired ++ l.cancelled).Perm (List.range l.added.length) ∧
    (∀ due k, q.add due k = ⟨q.timers.insertIdx
      (bisect (fun i => decide (due < (q.timers.getD i default).due)) 0 q.timers.length) ⟨due, k⟩⟩) ∧
    (∀ now (s : Stage (Mind W)), q.fire now s = ((l.due now).length, ⟨(l.later now).map l.timer⟩,
      ((l.due now).map fun i => (l.timer i).handle).foldl Stage.finish s)) ∧
    (∀ s : Stage (Mind W), q.cancel s = ({}, (l.queued.map fun i => (l.timer i).handle).foldl Stage.abandon s)) ∧
    ∀ now (s : Stage (Mind W)) (k : Nat),
      ((∃ i ∈ l.due now, (l.timer i).handle = k) →
        ∀ h, s.handles.get? k = some h → h.isDone = false →
          s.handles.Completes k (.resolved .void) (q.fire now s).2.2.handles) ∧
      ((¬∃ i ∈ l.due now, (l.timer i).handle = k) ∨
          (∀ h, s.handles.get? k = some h → h.isDone = true) →
        (q.fire now s).2.2.handles.get? k = s.handles.get? k) := by
  intro q l
  have h : l.Describes q := Ledger.describes_of requests
  have hfire : ∀ now (s : Stage (Mind W)), q.fire now s = ((l.due now).length, ⟨(l.later now).map l.timer⟩,
      ((l.due now).map fun i => (l.timer i).handle).foldl Stage.finish s) := fun now s => by
    rw [TimerQueue.fire, h.due_eq, List.length_map]
  refine ⟨h.timers, l.pairwise_queued, h.parts, h.sorted.add_eq_insertIdx, hfire, fun s => ?_,
    fun now s k => ⟨fun hdue x hx hpending => ?_, fun hother => ?_⟩⟩
  · rw [TimerQueue.cancel, h.timers, List.map_map]
    rfl
  · rw [hfire]
    have hmem : k ∈ (l.due now).map fun i => (l.timer i).handle := List.mem_map.mpr hdue
    obtain ⟨a, rfl, hcompletes⟩ := Stage.completing_finish.foldl_completes hx hpending hmem
    exact hcompletes
  · rw [hfire]
    exact Stage.completing_finish.foldl_eq (hother.imp_left fun hnone hmem => hnone (List.mem_map.mp hmem))

end TileMind
