import Mathlib.Logic.Function.Basic
import Mathlib.Logic.Relation

/-!
# Abstract file systems

What users see of a file system: what each object is, what the directories
name and the bytes of the files. A call comes with its answer; `Spec` says
which calls with which answers lead from one state to another. A call that
fails changes nothing, except for a write, which may have got part of the way.
-/
namespace FileTree

universe u v w

inductive Kind where
  | directory
  | file
  deriving DecidableEq

@[ext]
structure State (κ : Type u) (ν : Type v) (β : Type w) where
  kind : κ → Option Kind
  entry : κ → ν → Option κ
  bytes : κ → List β

/-- A call of a user and what it returned. Whether a `compact` keeps the bytes is
known before it starts. A `flush` is what the system does of its own accord. -/
inductive Call (κ : Type u) (ν : Type v) (β : Type w) where
  | lookup (dir : κ) (name : ν) (found : Except Int (Option κ))
  | create (dir : κ) (name : ν) (kind : Kind) (ret : Int)
  | remove (dir : κ) (name : ν) (k : κ) (kind : Kind) (ret : Int)
  | rename (dir : κ) (name : ν) (dir' : κ) (name' : ν) (ret : Int)
  | read (k : κ) (pos size : Nat) (data : List β)
  | write (k : κ) (pos : Nat) (data : List β) (written : Nat) (ret : Int)
  | compact (k : κ) (keeps : Bool) (ret : Int)
  | flush

variable {κ : Type u} {ν : Type v} {β : Type w}

/-- The first `m` elements of `data` are inserted at `pos`; a gap behind the end
is closed with some `g` first. Without data the gap may stay open. -/
structure Inserted (pos : Nat) (data : List β) (m : Nat) (old new : List β) : Prop where
  le : m ≤ data.length
  eq : ∃ g, (g = [] ∨ g.length = pos - old.length) ∧ (0 < m → g.length = pos - old.length) ∧
    new = (old ++ g).take pos ++ data.take m ++ (old ++ g).drop pos

/-- A directory without entries and nothing else. -/
def root [DecidableEq κ] (top : κ) : State κ ν β where
  kind := fun k => if k = top then some .directory else none
  entry := fun _ _ => none
  bytes := fun _ => []

open Function

namespace State

variable [DecidableEq κ] [DecidableEq ν]

/-- The name leads to `target` or, without one, nowhere. -/
def name (t : State κ ν β) (dir : κ) (n : ν) (target : Option κ) : State κ ν β :=
  { t with entry := update t.entry dir (update (t.entry dir) n target) }

/-- A new object without contents. -/
def enter (t : State κ ν β) (dir : κ) (n : ν) (k : κ) (kind : Kind) : State κ ν β :=
  { t.name dir n (some k) with kind := update t.kind k (some kind) }

/-- The object and its contents go with its name. -/
def leave (t : State κ ν β) (dir : κ) (n : ν) (k : κ) : State κ ν β :=
  { t.name dir n none with kind := update t.kind k none, bytes := update t.bytes k [] }

def store (t : State κ ν β) (k : κ) (bs : List β) : State κ ν β :=
  { t with bytes := update t.bytes k bs }

end State

variable [DecidableEq κ] [DecidableEq ν]

/-- The states that a call leads to with its answer. -/
def Spec (t : State κ ν β) : Call κ ν β → State κ ν β → Prop
  | .lookup dir n found, t' => found = .ok (t.entry dir n) ∧ t' = t
  | .create dir n kind ret, t' =>
    (ret < 0 ∧ t' = t) ∨
      (ret = 0 ∧ t.kind dir = some .directory ∧ t.entry dir n = none ∧
        ∃ k, t.kind k = none ∧ t' = t.enter dir n k kind)
  | .remove dir n k kind ret, t' =>
    t.entry dir n = some k ∧ t.kind k = some kind ∧
      ((ret < 0 ∧ (∃ m, t.entry k m ≠ none) ∧ t' = t) ∨
        (ret = 0 ∧ (∀ m, t.entry k m = none) ∧ t' = t.leave dir n k))
  | .rename dir n dir' n' ret, t' =>
    (ret < 0 ∧ t' = t) ∨
      (ret = 0 ∧ t.kind dir' = some .directory ∧ t.entry dir' n' = none ∧
        ∃ k, t.entry dir n = some k ∧ t' = (t.name dir n none).name dir' n' (some k))
  | .read k pos size data, t' =>
    data.length ≤ size ∧ data <+: (t.bytes k).drop pos ∧ t' = t
  | .write k pos data written ret, t' =>
    (0 ≤ ret → ret = written) ∧
      ∃ bs, Inserted pos data written (t.bytes k) bs ∧ t' = t.store k bs
  | .compact k keeps _, t' =>
    ∃ bs, bs.length = (t.bytes k).length ∧ (keeps = true → bs = t.bytes k) ∧ t' = t.store k bs
  | .flush, t' => t' = t

/-! ## Reachable objects -/

/-- `k` has a name in `d`. -/
def Names (t : State κ ν β) (d k : κ) : Prop := ∃ n, t.entry d n = some k

/-- A path of names leads from `d` to `k`. -/
def Reaches (t : State κ ν β) : κ → κ → Prop := Relation.ReflTransGen (Names t)

/-- Everything there is can be reached from `top`. -/
def Connected (top : κ) (t : State κ ν β) : Prop := ∀ k, t.kind k ≠ none → Reaches t top k

/-- Nothing is moved below itself. -/
def Guarded (t : State κ ν β) : Call κ ν β → Prop
  | .rename dir n dir' _ _ => ∀ k, t.entry dir n = some k → ¬ Reaches t k dir'
  | _ => True

section

variable {t t' : State κ ν β} {top d k : κ}

omit [DecidableEq κ] [DecidableEq ν] in
/-- Names that stay keep what they lead to within reach. -/
theorem Reaches.mono (keep : ∀ d k, Names t d k → Names t' d k) (h : Reaches t top k) :
    Reaches t' top k :=
  Relation.ReflTransGen.mono keep _ _ h

omit [DecidableEq κ] [DecidableEq ν] in
theorem Connected.congr (h : Connected top t) (kind : t'.kind = t.kind)
    (entry : t'.entry = t.entry) : Connected top t' := by
  intro k hk
  rw [kind] at hk
  refine (h k hk).mono ?_
  rintro d k ⟨n, hn⟩
  exact ⟨n, by rw [entry]; exact hn⟩

theorem entry_name {n m : ν} {dir : κ} {target : Option κ} :
    (t.name dir n target).entry d m = if d = dir ∧ m = n then target else t.entry d m := by
  change update t.entry dir (update (t.entry dir) n target) d m = _
  by_cases hd : d = dir
  · subst hd
    by_cases hm : m = n
    · subst hm
      rw [update_self, update_self, if_pos ⟨rfl, rfl⟩]
    · rw [update_self, update_of_ne hm, if_neg fun h => hm h.2]
  · rw [update_of_ne hd, if_neg fun h => hd h.1]

theorem Connected.enter (h : Connected top t) {dir : κ} {n : ν} {kind : Kind}
    (exists_ : t.kind dir ≠ none) (fresh : t.entry dir n = none) :
    Connected top (t.enter dir n k kind) := by
  have hkeep : ∀ d x, Names t d x → Names (t.enter dir n k kind) d x := by
    rintro d x ⟨m, hm⟩
    refine ⟨m, entry_name.trans ((if_neg ?_).trans hm)⟩
    rintro ⟨rfl, rfl⟩
    rw [fresh] at hm
    cases hm
  intro x hx
  change update t.kind k (some kind) x ≠ none at hx
  by_cases hxk : x = k
  · subst hxk
    exact ((h dir exists_).mono hkeep).tail ⟨n, entry_name.trans (if_pos ⟨rfl, rfl⟩)⟩
  · rw [update_of_ne hxk] at hx
    exact (h x hx).mono hkeep

theorem Connected.leave (h : Connected top t) {dir : κ} {n : ν} (at_ : t.entry dir n = some k)
    (leaf : ∀ m, t.entry k m = none) : Connected top (t.leave dir n k) := by
  -- no path goes on from `k`
  have hpath : ∀ x, Reaches t top x → x ≠ k → Reaches (t.leave dir n k) top x := by
    intro x hx
    induction hx with
    | refl => exact fun _ => .refl
    | @tail y z _ step ih =>
      intro hz
      obtain ⟨m, hm⟩ := step
      have hy : y ≠ k := by
        rintro rfl
        rw [leaf] at hm
        cases hm
      refine (ih hy).tail ⟨m, entry_name.trans ((if_neg ?_).trans hm)⟩
      rintro ⟨rfl, rfl⟩
      rw [at_] at hm
      exact hz (Option.some.inj hm).symm
  intro x hx
  change update t.kind k none x ≠ none at hx
  have hxk : x ≠ k := by
    rintro rfl
    rw [update_self] at hx
    exact hx rfl
  rw [update_of_ne hxk] at hx
  exact hpath x (h x hx) hxk

theorem Connected.rename (h : Connected top t) {dir dir' : κ} {n n' : ν}
    (at_ : t.entry dir n = some k) (exists_ : t.kind dir' ≠ none) (fresh : t.entry dir' n' = none)
    (guard : ¬ Reaches t k dir') : Connected top ((t.name dir n none).name dir' n' (some k)) := by
  obtain ⟨t', ht'⟩ : ∃ t', t' = (t.name dir n none).name dir' n' (some k) := ⟨_, rfl⟩
  rw [← ht']
  have hentry : ∀ d m, t'.entry d m = if d = dir' ∧ m = n' then some k else
      if d = dir ∧ m = n then none else t.entry d m := by
    intro d m
    rw [ht', entry_name, entry_name]
  -- every name but the old one stays
  have hkeep : ∀ d m x, t.entry d m = some x → ¬ (d = dir ∧ m = n) → Names t' d x := by
    intro d m x hm hne
    refine ⟨m, (hentry d m).trans ((if_neg ?_).trans ((if_neg hne).trans hm))⟩
    rintro ⟨rfl, rfl⟩
    rw [fresh] at hm
    cases hm
  have hnew : Names t' dir' k := ⟨n', (hentry dir' n').trans (if_pos ⟨rfl, rfl⟩)⟩
  -- the path to the new directory does not pass `k`
  have hbefore : ∀ x, Reaches t top x → ¬ Reaches t k x → Reaches t' top x := by
    intro x hx
    induction hx with
    | refl => exact fun _ => .refl
    | @tail y z _ step ih =>
      intro hz
      have hy : ¬ Reaches t k y := fun hky => hz (hky.tail step)
      obtain ⟨m, hm⟩ := step
      refine (ih hy).tail (hkeep y m z hm ?_)
      rintro ⟨rfl, rfl⟩
      rw [at_] at hm
      exact hz (Option.some.inj hm ▸ .refl)
  have hk : Reaches t' top k := (hbefore dir' (h dir' exists_) guard).tail hnew
  have hpath : ∀ x, Reaches t top x → Reaches t' top x := by
    intro x hx
    induction hx with
    | refl => exact .refl
    | @tail y z _ step ih =>
      obtain ⟨m, hm⟩ := step
      by_cases hold : y = dir ∧ m = n
      · obtain ⟨rfl, rfl⟩ := hold
        rw [at_] at hm
        exact Option.some.inj hm ▸ hk
      · exact ih.tail (hkeep y m z hm hold)
  intro x hx
  rw [ht'] at hx
  exact hpath x (h x hx)

/-- An object without a name stays. -/
theorem Spec.kind_unnamed {call : Call κ ν β} {kind : Kind} (there : t.kind k = some kind)
    (unnamed : ∀ d n, t.entry d n ≠ some k) (spec : Spec t call t') : t'.kind k = some kind := by
  cases call with
  | lookup dir n found =>
    obtain ⟨_, rfl⟩ := spec
    exact there
  | create dir n kd ret =>
    rcases spec with ⟨_, rfl⟩ | ⟨_, _, _, x, hnone, rfl⟩
    · exact there
    · refine (update_of_ne ?_ _ _).trans there
      rintro rfl
      rw [there] at hnone
      cases hnone
  | remove dir n x kd ret =>
    obtain ⟨hat, _, ⟨_, _, rfl⟩ | ⟨_, _, rfl⟩⟩ := spec
    · exact there
    · refine (update_of_ne ?_ _ _).trans there
      rintro rfl
      exact unnamed dir n hat
  | rename dir n dir' n' ret =>
    rcases spec with ⟨_, rfl⟩ | ⟨_, _, _, x, _, rfl⟩
    · exact there
    · exact there
  | read x pos size data =>
    obtain ⟨_, _, rfl⟩ := spec
    exact there
  | write x pos data written ret =>
    obtain ⟨_, bs, _, rfl⟩ := spec
    exact there
  | compact x keeps ret =>
    obtain ⟨bs, _, _, rfl⟩ := spec
    exact there
  | flush =>
    obtain rfl := spec
    exact there

end

end FileTree
