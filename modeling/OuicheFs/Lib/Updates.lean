import Mathlib.Data.List.TakeDrop

/-!
# Updates of single places

A list of updates, each at one place of a store, that can be cut short anywhere.
Updates that make up for whatever was done to their places before leave no trace
of attempts that came to an early end.
-/
namespace Updates

universe u v

variable {κ : Type u} {β : Type v} [DecidableEq κ]

def apply : List (κ × (β → β)) → (κ → β) → κ → β
  | [], d => d
  | (k, f) :: us, d => apply us fun x => if x = k then f (d k) else d x

theorem apply_append (us vs : List (κ × (β → β))) :
    ∀ d, apply (us ++ vs) d = apply vs (apply us d) := by
  induction us with
  | nil => exact fun _ => rfl
  | cons p us ih => exact fun d => ih _

/-- What the updates make of the contents `b` of the place `x`. -/
def seen : List (κ × (β → β)) → κ → β → β
  | [], _, b => b
  | (k, f) :: us, x, b => seen us x (if k = x then f b else b)

theorem apply_eq_seen (us : List (κ × (β → β))) (x : κ) :
    ∀ d : κ → β, apply us d x = seen us x (d x) := by
  induction us with
  | nil => exact fun _ => rfl
  | cons p us ih =>
    intro d
    rw [apply, ih, seen]
    by_cases hx : x = p.1
    · rw [if_pos hx, if_pos hx.symm, hx]
    · rw [if_neg hx, if_neg (Ne.symm hx)]

/-- Contents that differ only in what the updates keep apart end up the same, if one
update makes them the same. -/
theorem seen_congr (R : β → β → Prop) {us : List (κ × (β → β))} {x : κ} {f : β → β}
    (mem : (x, f) ∈ us) (full : ∀ b b', R b b' → f b = f b')
    (keep : ∀ p ∈ us, ∀ b b', R b b' → R (p.2 b) (p.2 b')) :
    ∀ {b b' : β}, R b b' → seen us x b = seen us x b' := by
  induction us with
  | nil => cases mem
  | cons p us ih =>
    intro b b' h
    obtain ⟨hp, hus⟩ := List.forall_mem_cons.mp keep
    rcases List.mem_cons.mp mem with rfl | hmem
    · rw [seen, seen, if_pos rfl, if_pos rfl, full b b' h]
    · rw [seen, seen]
      refine ih hmem hus ?_
      by_cases hx : p.1 = x
      · rw [if_pos hx, if_pos hx]
        exact hp b b' h
      · rw [if_neg hx, if_neg hx]
        exact h

/-- Updates that change nothing at their places change nothing at all. -/
theorem apply_fixed {us : List (κ × (β → β))} {d : κ → β} (h : ∀ p ∈ us, p.2 (d p.1) = d p.1) :
    apply us d = d := by
  induction us with
  | nil => rfl
  | cons p us ih =>
    obtain ⟨hp, hus⟩ := List.forall_mem_cons.mp h
    have hsame : (fun x => if x = p.1 then p.2 (d p.1) else d x) = d := by
      funext x
      by_cases hx : x = p.1
      · rw [if_pos hx, hp, hx]
      · rw [if_neg hx]
    rw [apply, hsame]
    exact ih hus

/-- Updates after which it does not matter that others were made before. -/
def Absorbs (us vs : List (κ × (β → β))) : Prop :=
  ∀ q ∈ vs, ∀ b, seen us q.1 (q.2 b) = seen us q.1 b

theorem Absorbs.apply_eq {us vs : List (κ × (β → β))} (h : Absorbs us vs) :
    ∀ d, apply us (apply vs d) = apply us d := by
  induction vs with
  | nil => exact fun _ => rfl
  | cons q vs ih =>
    intro d
    obtain ⟨hq, hvs⟩ := List.forall_mem_cons.mp h
    rw [apply, ih hvs]
    funext x
    rw [apply_eq_seen, apply_eq_seen]
    by_cases hx : x = q.1
    · rw [if_pos hx, hx, hq]
    · rw [if_neg hx]

/-- Attempts of any kind, one after the other, that each come to an end anywhere. -/
theorem Absorbs.attempts {us : List (κ × (β → β))} (vss : List (List (κ × (β → β))))
    (h : ∀ vs ∈ vss, Absorbs us vs) :
    ∀ d, apply us (vss.foldl (fun d vs => apply vs d) d) = apply us d := by
  induction vss with
  | nil => exact fun _ => rfl
  | cons vs vss ih =>
    intro d
    obtain ⟨hvs, hvss⟩ := List.forall_mem_cons.mp h
    rw [List.foldl_cons, ih hvss, hvs.apply_eq]

end Updates
