import Mathlib.Data.List.Nodup
import Mathlib.Data.List.Perm.Basic
import Mathlib.Logic.Function.Basic

/-!
# Exclusive holdings

The units of a resource are free, reserved or listed with exactly one holder.
Every change that concerns a single holder, whether it takes free units, gives
units back or both, is one exchange of that holder's list. Units may also get
lost: what is held stays exclusive as long as no unit is handed out twice.
-/
namespace Ledger

universe u v

variable {ι : Type u} {β : Type v}

/-- Nobody shares a unit, and no unit that is held is free. -/
structure Exclusive (all free : β → Prop) (holds : ι → List β) : Prop where
  nodup : ∀ i, (holds i).Nodup
  disjoint : ∀ i j b, b ∈ holds i → b ∈ holds j → i = j
  held : ∀ i b, b ∈ holds i → all b ∧ ¬ free b

/-- No unit has two places, and every unit in `all` has one. -/
structure Partition (all free reserved : β → Prop) (holds : ι → List β) : Prop where
  nodup : ∀ i, (holds i).Nodup
  disjoint : ∀ i j b, b ∈ holds i → b ∈ holds j → i = j
  held : ∀ i b, b ∈ holds i → all b ∧ ¬ free b ∧ ¬ reserved b
  reserved_taken : ∀ b, reserved b → ¬ free b
  cover : ∀ b, all b → free b ∨ reserved b ∨ ∃ i, b ∈ holds i

section

variable {all free free' reserved : β → Prop} {holds holds' : ι → List β}

theorem Exclusive.not_mem (h : Exclusive all free holds) {i j : ι} (ne : j ≠ i) {b : β}
    (hb : b ∈ holds j) : b ∉ holds i := fun hi => ne (h.disjoint j i b hb hi)

/-- The exchange of the holdings of `i`. What is new was free; what becomes free
has been given up. -/
theorem Exclusive.exchange (h : Exclusive all free holds) (i : ι)
    (others : ∀ j, j ≠ i → holds' j = holds j) (nodup : (holds' i).Nodup)
    (new : ∀ b ∈ holds' i, b ∈ holds i ∨ all b ∧ free b)
    (released : ∀ b, free' b → (free b ∨ b ∈ holds i) ∧ b ∉ holds' i) :
    Exclusive all free' holds' := by
  -- what `i` holds afterwards belongs to nobody else
  have own : ∀ b ∈ holds' i, (∀ j, j ≠ i → b ∉ holds j) ∧ all b := by
    intro b hb
    rcases new b hb with hold | ⟨hall, hfree⟩
    · exact ⟨fun j hj hmem => hj (h.disjoint j i b hmem hold), (h.held i b hold).1⟩
    · exact ⟨fun j _ hmem => (h.held j b hmem).2 hfree, hall⟩
  constructor
  · intro j
    by_cases hj : j = i
    · rw [hj]
      exact nodup
    · rw [others j hj]
      exact h.nodup j
  · intro j k b hbj hbk
    by_cases hj : j = i <;> by_cases hk : k = i
    · rw [hj, hk]
    · rw [hj] at hbj
      rw [others k hk] at hbk
      exact absurd hbk ((own b hbj).1 k hk)
    · rw [hk] at hbk
      rw [others j hj] at hbj
      exact absurd hbj ((own b hbk).1 j hj)
    · rw [others j hj] at hbj
      rw [others k hk] at hbk
      exact h.disjoint j k b hbj hbk
  · intro j b hb
    by_cases hj : j = i
    · rw [hj] at hb
      exact ⟨(own b hb).2, fun hfree => (released b hfree).2 hb⟩
    · rw [others j hj] at hb
      obtain ⟨hall, hfree⟩ := h.held j b hb
      refine ⟨hall, fun hfree' => ?_⟩
      rcases (released b hfree').1 with hf | hi
      · exact hfree hf
      · exact h.not_mem hj hb hi

/-- Units that are not reserved are held exclusively. -/
theorem Partition.exclusive (h : Partition all free reserved holds) :
    Exclusive (fun b => all b ∧ ¬ reserved b) free holds :=
  ⟨h.nodup, h.disjoint, fun i b hb =>
    ⟨⟨(h.held i b hb).1, (h.held i b hb).2.2⟩, (h.held i b hb).2.1⟩⟩

/-- What one holder holds belongs to no other. -/
theorem Partition.not_mem (h : Partition all free reserved holds) {i j : ι} (ne : j ≠ i) {b : β}
    (hb : b ∈ holds j) : b ∉ holds i := h.exclusive.not_mem ne hb

/-- The exchange of the holdings of `i`. What is new was free; what is given up
becomes free. -/
theorem Partition.exchange (h : Partition all free reserved holds) (i : ι)
    (others : ∀ j, j ≠ i → holds' j = holds j) (nodup : (holds' i).Nodup)
    (new : ∀ b ∈ holds' i, b ∈ holds i ∨ all b ∧ free b)
    (released : ∀ b, free' b ↔ (free b ∨ b ∈ holds i) ∧ b ∉ holds' i) :
    Partition all free' reserved holds' := by
  have hexcl := h.exclusive.exchange i others nodup (fun b hb => (new b hb).imp_right fun hf =>
    ⟨⟨hf.1, fun hres => h.reserved_taken b hres hf.2⟩, hf.2⟩) (fun b => (released b).mp)
  refine ⟨hexcl.nodup, hexcl.disjoint, ?_, ?_, ?_⟩
  · intro j b hb
    obtain ⟨⟨hall, hres⟩, hfree⟩ := hexcl.held j b hb
    exact ⟨hall, hfree, hres⟩
  · intro b hres hfree'
    rcases ((released b).mp hfree').1 with hf | hi
    · exact h.reserved_taken b hres hf
    · exact (h.held i b hi).2.2 hres
  · intro b hall
    by_cases hi : b ∈ holds' i
    · exact Or.inr (Or.inr ⟨i, hi⟩)
    rcases h.cover b hall with hf | hr | ⟨j, hj⟩
    · exact Or.inl ((released b).mpr ⟨Or.inl hf, hi⟩)
    · exact Or.inr (Or.inl hr)
    · by_cases hji : j = i
      · rw [hji] at hj
        exact Or.inl ((released b).mpr ⟨Or.inr hj, hi⟩)
      · exact Or.inr (Or.inr ⟨j, by rw [others j hji]; exact hj⟩)

/-- What remains of a list without repetitions when the unit at place `k` goes. -/
theorem mem_eraseIdx_iff {l : List β} (nodup : l.Nodup) {k : Nat} {b : β} (at_ : l[k]? = some b)
    (x : β) : x ∈ l.eraseIdx k ↔ x ∈ l ∧ x ≠ b := by
  classical
  obtain ⟨hk, rfl⟩ := List.getElem?_eq_some_iff.mp at_
  rw [← nodup.erase_getElem k hk, nodup.mem_erase_iff]
  exact and_comm

variable [DecidableEq ι]

/-- A free unit is appended to the holdings of `i`. -/
theorem Partition.take (h : Partition all free reserved holds) (i : ι) {b : β} (inRange : all b)
    (wasFree : free b) :
    Partition all (fun x => free x ∧ x ≠ b) reserved
      (Function.update holds i (holds i ++ [b])) := by
  have hnot : b ∉ holds i := fun hb => (h.held i b hb).2.1 wasFree
  refine h.exchange i (fun j hj => Function.update_of_ne hj _ _) ?_ ?_ ?_
  · rw [Function.update_self]
    refine (h.nodup i).append (List.nodup_singleton b) ?_
    intro x hx hxb
    exact hnot (List.mem_singleton.mp hxb ▸ hx)
  · rw [Function.update_self]
    intro x hx
    rcases List.mem_append.mp hx with hold | hnew
    · exact Or.inl hold
    · rw [List.mem_singleton.mp hnew]
      exact Or.inr ⟨inRange, wasFree⟩
  · rw [Function.update_self]
    intro x
    rw [List.mem_append, List.mem_singleton, not_or]
    constructor
    · rintro ⟨hfree, hne⟩
      exact ⟨Or.inl hfree, fun hx => (h.held i x hx).2.1 hfree, hne⟩
    · rintro ⟨hfree, hx, hne⟩
      exact ⟨hfree.resolve_right hx, hne⟩

/-- The unit at place `k` of the holdings of `i` becomes free. -/
theorem Partition.release (h : Partition all free reserved holds) (i : ι) {k : Nat} {b : β}
    (at_ : (holds i)[k]? = some b) :
    Partition all (fun x => free x ∨ x = b) reserved
      (Function.update holds i ((holds i).eraseIdx k)) := by
  have hmem := mem_eraseIdx_iff (h.nodup i) at_
  refine h.exchange i (fun j hj => Function.update_of_ne hj _ _) ?_ ?_ ?_
  · rw [Function.update_self]
    exact (h.nodup i).eraseIdx k
  · rw [Function.update_self]
    intro x hx
    exact Or.inl ((hmem x).mp hx).1
  · rw [Function.update_self]
    intro x
    rw [hmem x, not_and, not_not]
    constructor
    · rintro (hfree | rfl)
      · exact ⟨Or.inl hfree, fun hx => absurd hfree (h.held i x hx).2.1⟩
      · exact ⟨Or.inr (List.mem_of_getElem? at_), fun _ => rfl⟩
    · rintro ⟨hfree | hx, himp⟩
      · exact Or.inl hfree
      · exact Or.inr (himp hx)

end

/-- Numbers below `n`: the free ones, the reserved ones and those of the holders
below `k` are all of them, each once. -/
theorem Partition.perm_range {n m k : Nat} {free : Nat → Bool} {holds : Nat → List Nat}
    (h : Partition (· < n) (free · = true) (· < m) holds) (le : m ≤ n)
    (bound : ∀ i, k ≤ i → holds i = []) :
    ((List.range n).filter free ++ (List.range m ++ (List.range k).flatMap holds)).Perm
      (List.range n) := by
  have hheld : ∀ b, b ∈ (List.range k).flatMap holds ↔ ∃ i, b ∈ holds i := by
    intro b
    rw [List.mem_flatMap]
    constructor
    · rintro ⟨i, _, hb⟩
      exact ⟨i, hb⟩
    · rintro ⟨i, hb⟩
      refine ⟨i, List.mem_range.mpr ?_, hb⟩
      by_contra hge
      rw [bound i (Nat.not_lt.mp hge)] at hb
      cases hb
  have hnodup : ((List.range k).flatMap holds).Nodup := by
    refine List.nodup_flatMap.mpr ⟨fun i _ => h.nodup i, ?_⟩
    refine (List.nodup_range (n := k)).imp ?_
    intro i j hne b hi hj
    exact hne (h.disjoint i j b hi hj)
  refine (List.perm_ext_iff_of_nodup ?_ List.nodup_range).mpr ?_
  · rw [List.nodup_append, List.nodup_append]
    refine ⟨List.nodup_range.filter _, ⟨List.nodup_range, hnodup, ?_⟩, ?_⟩
    · rintro a ha b hb rfl
      obtain ⟨i, hi⟩ := (hheld a).mp hb
      exact (h.held i a hi).2.2 (List.mem_range.mp ha)
    · rintro a ha b hb rfl
      have hfree := (List.mem_filter.mp ha).2
      rcases List.mem_append.mp hb with hb | hb
      · exact h.reserved_taken a (List.mem_range.mp hb) hfree
      · obtain ⟨i, hi⟩ := (hheld a).mp hb
        exact (h.held i a hi).2.1 hfree
  · intro b
    rw [List.mem_append, List.mem_append, List.mem_filter, hheld]
    simp only [List.mem_range]
    constructor
    · rintro (⟨hb, _⟩ | hb | ⟨i, hb⟩)
      · exact hb
      · exact Nat.lt_of_lt_of_le hb le
      · exact (h.held i b hb).1
    · intro hb
      rcases h.cover b hb with hfree | hres | hheld
      · exact Or.inl ⟨hb, hfree⟩
      · exact Or.inr (Or.inl hres)
      · exact Or.inr (Or.inr hheld)

/-- What is free, reserved and held adds up. -/
theorem Partition.count {n m k : Nat} {free : Nat → Bool} {holds : Nat → List Nat}
    (h : Partition (· < n) (free · = true) (· < m) holds) (le : m ≤ n)
    (bound : ∀ i, k ≤ i → holds i = []) :
    ((List.range n).filter free).length + m + ((List.range k).flatMap holds).length = n := by
  have hlen := (h.perm_range le bound).length_eq
  rw [List.length_append, List.length_append, List.length_range, List.length_range] at hlen
  omega

end Ledger
