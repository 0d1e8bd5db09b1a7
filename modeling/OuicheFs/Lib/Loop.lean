import Mathlib.Order.WellFounded
import Mathlib.Data.Nat.Basic

/-!
# Loops whose termination is not evident, and runs

`iterate` runs a loop body under explicit fuel. A body either leaves the loop
with a result or passes on the next state; a run that exhausts its fuel has no
result. Termination and divergence are proved with an invariant, and so is what
a whole run over a list of calls has in common.
-/
namespace Loop

universe u v w

inductive Ctl (ρ : Type u) (σ : Type v) where
  | done (r : ρ)
  | next (s : σ)

variable {ρ : Type u} {σ : Type v}

def iterate (body : σ → Ctl ρ σ) : Nat → σ → Option ρ
  | 0, _ => none
  | fuel + 1, s =>
    match body s with
    | .done r => some r
    | .next s' => iterate body fuel s'

theorem iterate_mono {body : σ → Ctl ρ σ} {m n : Nat} {s : σ} {r : ρ} (h : m ≤ n)
    (hm : iterate body m s = some r) : iterate body n s = some r := by
  induction m generalizing n s with
  | zero => cases hm
  | succ m ih =>
    obtain ⟨n, rfl⟩ : ∃ k, n = k + 1 := ⟨n - 1, by omega⟩
    cases hb : body s with
    | done r' => simpa only [iterate, hb] using hm
    | next s' =>
      simp only [iterate, hb] at hm ⊢
      exact ih (by omega) hm

/-- A result reached from a state satisfying the invariant satisfies the
postcondition, whatever the fuel. -/
theorem iterate_sound {body : σ → Ctl ρ σ} (Inv : σ → Prop) (Post : ρ → Prop)
    (step : ∀ s, Inv s →
      (∀ r, body s = .done r → Post r) ∧ (∀ s', body s = .next s' → Inv s'))
    {fuel : Nat} {s : σ} (hs : Inv s) {r : ρ} (h : iterate body fuel s = some r) :
    Post r := by
  induction fuel generalizing s with
  | zero => cases h
  | succ fuel ih =>
    cases hb : body s with
    | done r' =>
      simp only [iterate, hb, Option.some.injEq] at h
      exact h ▸ (step s hs).1 r' hb
    | next s' =>
      simp only [iterate, hb] at h
      exact ih ((step s hs).2 s' hb) h

/-- With a measure that every iteration lowers, some fuel suffices. -/
theorem iterate_terminates {body : σ → Ctl ρ σ} {β : Type w} [Preorder β]
    [WellFoundedLT β] (measure : σ → β) (Inv : σ → Prop)
    (step : ∀ s, Inv s → ∀ s', body s = .next s' → Inv s' ∧ measure s' < measure s)
    (s : σ) (hs : Inv s) : ∃ fuel r, iterate body fuel s = some r := by
  have main : ∀ b : β, ∀ s, measure s = b → Inv s →
      ∃ fuel r, iterate body fuel s = some r := by
    intro b
    induction b using WellFoundedLT.induction with
    | ind b ih =>
      intro s hb hs
      cases hbody : body s with
      | done r => exact ⟨1, r, by simp [iterate, hbody]⟩
      | next s' =>
        obtain ⟨hs', hlt⟩ := step s hs s' hbody
        obtain ⟨fuel, r, h⟩ := ih (measure s') (hb ▸ hlt) s' rfl hs'
        exact ⟨fuel + 1, r, by simpa only [iterate, hbody] using h⟩
  exact main (measure s) s rfl hs

/-- A body that never leaves a set of states runs out of every fuel. -/
theorem iterate_diverges {body : σ → Ctl ρ σ} (Inv : σ → Prop)
    (step : ∀ s, Inv s → ∃ s', body s = .next s' ∧ Inv s')
    {s : σ} (hs : Inv s) (fuel : Nat) : iterate body fuel s = none := by
  induction fuel generalizing s with
  | zero => rfl
  | succ fuel ih =>
    obtain ⟨s', hb, hs'⟩ := step s hs
    simpa only [iterate, hb] using ih hs'

/-! ## What a run shows -/

section

variable {α : Type w}

/-- What `see` shows in the states of a run, in order. -/
def observe (see : σ → List α) (body : σ → Ctl ρ σ) : Nat → σ → List α
  | 0, _ => []
  | fuel + 1, s =>
    see s ++ match body s with
      | .done _ => []
      | .next s' => observe see body fuel s'

/-- Everything that a run from `s` shows has the property `P`, however long it is. -/
def Shows (see : σ → List α) (body : σ → Ctl ρ σ) (P : α → Prop) (s : σ) : Prop :=
  ∀ fuel, ∀ a ∈ observe see body fuel s, P a

theorem mem_observe {see : σ → List α} {body : σ → Ctl ρ σ} {fuel : Nat} {s : σ} {a : α} :
    a ∈ observe see body (fuel + 1) s ↔
      a ∈ see s ∨ ∃ s', body s = .next s' ∧ a ∈ observe see body fuel s' := by
  rw [observe, List.mem_append]
  cases hb : body s with
  | done r => simp
  | next s' => simp

/-- A run shows what its first state shows and what the run from the next one does. -/
theorem shows_iff {see : σ → List α} {body : σ → Ctl ρ σ} {P : α → Prop} {s : σ} :
    Shows see body P s ↔
      (∀ a ∈ see s, P a) ∧ ∀ s', body s = .next s' → Shows see body P s' := by
  constructor
  · intro h
    constructor
    · exact fun a ha => h 1 a (mem_observe.mpr (Or.inl ha))
    · exact fun s' hs' fuel a ha => h (fuel + 1) a (mem_observe.mpr (Or.inr ⟨s', hs', ha⟩))
  · rintro ⟨hhere, hnext⟩ fuel a ha
    cases fuel with
    | zero => cases ha
    | succ fuel =>
      rcases mem_observe.mp ha with ha | ⟨s', hs', ha⟩
      · exact hhere a ha
      · exact hnext s' hs' fuel a ha

/-- What every state of an invariant shows, every run from such a state shows. -/
theorem shows_of_inv {see : σ → List α} {body : σ → Ctl ρ σ} {P : α → Prop} (Inv : σ → Prop)
    (here : ∀ s, Inv s → ∀ a ∈ see s, P a) (next : ∀ s s', Inv s → body s = .next s' → Inv s')
    {s : σ} (hs : Inv s) : Shows see body P s := by
  intro fuel
  induction fuel generalizing s with
  | zero =>
    intro a ha
    cases ha
  | succ fuel ih =>
    intro a ha
    rcases mem_observe.mp ha with ha | ⟨s', hs', ha⟩
    · exact here s hs a ha
    · exact ih (next s s' hs hs') a ha

end

/-! ## Runs over a list of calls -/

section

variable {α : Type w} {next : σ → α → σ}

/-- `P` holds of every call and the state it is made in. -/
def Along (next : σ → α → σ) (P : σ → α → Prop) : σ → List α → Prop
  | _, [] => True
  | s, a :: as => P s a ∧ Along next P (next s a) as

/-- If in every state of the invariant a call meets `Q` exactly when it is a good
one, and good calls keep the invariant, then a run meets `Q` throughout exactly
when all its calls are good. -/
theorem along_iff {P Q : σ → α → Prop} {Good : α → Prop} (Inv : σ → Prop)
    (meets : ∀ s a, Inv s → P s a → (Q s a ↔ Good a))
    (keeps : ∀ s a, Inv s → P s a → Good a → Inv (next s a)) (as : List α) :
    ∀ s, Inv s → Along next P s as → (Along next Q s as ↔ ∀ a ∈ as, Good a) := by
  induction as with
  | nil =>
    intro s _ _
    constructor
    · intro _ a ha
      cases ha
    · exact fun _ => trivial
  | cons a as ih =>
    intro s hs hp
    rw [List.forall_mem_cons]
    constructor
    · rintro ⟨hq, hrest⟩
      have hgood := (meets s a hs hp.1).mp hq
      exact ⟨hgood, (ih _ (keeps s a hs hp.1 hgood) hp.2).mp hrest⟩
    · rintro ⟨hgood, hrest⟩
      exact ⟨(meets s a hs hp.1).mpr hgood, (ih _ (keeps s a hs hp.1 hgood) hp.2).mpr hrest⟩

end

/-! ## Runs of labelled steps -/

section

variable {α : Type w} {τ : Type u}

/-- The steps of a run, with the calls that they answer in order. -/
inductive Run (Step : σ → α → σ → Prop) : σ → List α → σ → Prop
  | nil (s : σ) : Run Step s [] s
  | cons {s s' s'' : σ} {a : α} {as : List α} :
      Step s a s' → Run Step s' as s'' → Run Step s (a :: as) s''

theorem Run.single {Step : σ → α → σ → Prop} {s s' : σ} {a : α} (step : Step s a s') :
    Run Step s [a] s' := .cons step (.nil s')

theorem Run.mono {Step Step' : σ → α → σ → Prop} (sub : ∀ s a s', Step s a s' → Step' s a s')
    {s s' : σ} {as : List α} (run : Run Step s as s') : Run Step' s as s' := by
  induction run with
  | nil => exact .nil _
  | cons step _ ih => exact .cons (sub _ _ _ step) ih

theorem Run.split {Step : σ → α → σ → Prop} {s s' : σ} {as bs : List α}
    (run : Run Step s (as ++ bs) s') : ∃ m, Run Step s as m ∧ Run Step m bs s' := by
  induction as generalizing s with
  | nil => exact ⟨s, .nil s, run⟩
  | cons a as ih =>
    cases run with
    | cons step rest =>
      obtain ⟨m, hfirst, hlast⟩ := ih rest
      exact ⟨m, .cons step hfirst, hlast⟩

theorem Run.append {Step : σ → α → σ → Prop} {s m s' : σ} {as bs : List α}
    (first : Run Step s as m) (last : Run Step m bs s') : Run Step s (as ++ bs) s' := by
  induction first with
  | nil => exact last
  | cons step _ ih => exact .cons step (ih last)

/-- What every step keeps holds at the end of every run. -/
theorem Run.keeps {Step : σ → α → σ → Prop} (Inv : σ → Prop)
    (keeps : ∀ s a s', Inv s → Step s a s' → Inv s') {s s' : σ} {as : List α}
    (run : Run Step s as s') (hs : Inv s) : Inv s' := by
  induction run with
  | nil => exact hs
  | cons step _ ih => exact ih (keeps _ _ _ hs step)

/-- Steps that are matched by steps of another system, seen through `see`, make up
runs that are matched by runs with the same calls. -/
theorem Run.refines {Step : σ → α → σ → Prop} {Spec : τ → α → τ → Prop} (see : σ → τ)
    (Inv : σ → Prop) (keeps : ∀ s a s', Inv s → Step s a s' → Inv s')
    (matched : ∀ s a s', Inv s → Step s a s' → Spec (see s) a (see s')) {s s' : σ} {as : List α}
    (run : Run Step s as s') (hs : Inv s) : Run Spec (see s) as (see s') := by
  induction run with
  | nil => exact .nil _
  | cons step _ ih => exact .cons (matched _ _ _ hs step) (ih (keeps _ _ _ hs step))

end

end Loop
