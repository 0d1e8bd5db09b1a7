import OuicheFs.Lib.Ledger
import Mathlib.Data.List.InsertIdx
import Mathlib.Data.List.Perm.Basic

/-!
# Folders and their members

Every number is free, the root, or linked exactly once, by one folder and under
one name. Adding, removing, renaming and moving a link keep this, and each says
how the number of folders in a folder changes.
-/
namespace Hierarchy

open Ledger Function

universe u v

variable {κ : Type u} {ν : Type v}

structure Tree (κ : Type u) (ν : Type v) where
  free : κ → Prop
  folder : κ → Bool
  links : κ → List (κ × ν)

namespace Tree

def targets (t : Tree κ ν) (d : κ) : List κ := (t.links d).map Prod.fst

def names (t : Tree κ ν) (d : κ) : List ν := (t.links d).map Prod.snd

/-- How many members of a folder are folders. -/
def subfolders (t : Tree κ ν) (d : κ) : Nat := (t.targets d).countP t.folder

variable [DecidableEq κ]

/-- The free number `k` becomes a member of `d`. -/
def add (t : Tree κ ν) (d k : κ) (name : ν) (isFolder : Bool) : Tree κ ν where
  free := fun x => t.free x ∧ x ≠ k
  folder := update t.folder k isFolder
  links := update t.links d (t.links d ++ [(k, name)])

/-- The link at place `j` of `d` to `k` is dropped and `k` becomes free. -/
def remove (t : Tree κ ν) (d k : κ) (j : Nat) : Tree κ ν where
  free := fun x => t.free x ∨ x = k
  folder := update t.folder k false
  links := update t.links d ((t.links d).eraseIdx j)

def rename (t : Tree κ ν) (d k : κ) (j : Nat) (name : ν) : Tree κ ν :=
  { t with links := update t.links d ((t.links d).set j (k, name)) }

/-- The link at place `j` of `d` to `k` goes to the end of `d'`. -/
def move (t : Tree κ ν) (d k : κ) (j : Nat) (d' : κ) (name : ν) : Tree κ ν :=
  { t with
    links := update (update t.links d ((t.links d).eraseIdx j)) d' (t.links d' ++ [(k, name)]) }

end Tree

/-- Free numbers are linked nowhere, the others once; only folders link. -/
structure Consistent (all : κ → Prop) (root : κ) (t : Tree κ ν) : Prop where
  ledger : Partition all t.free (· = root) t.targets
  names : ∀ d, (t.names d).Nodup
  leaf : ∀ d, t.folder d = false → t.links d = []
  free_leaf : ∀ k, t.free k → t.folder k = false

section

variable {all : κ → Prop} {root : κ} {t : Tree κ ν} {d d' e k : κ} {j : Nat} {name old : ν}

theorem targets_getElem? (h : (t.links d)[j]? = some (k, old)) : (t.targets d)[j]? = some k := by
  rw [Tree.targets, List.getElem?_map, h]
  rfl

theorem mem_targets (h : (t.links d)[j]? = some (k, old)) : k ∈ t.targets d :=
  List.mem_of_getElem? (targets_getElem? h)

/-- A number that is in use is linked from exactly one place. -/
theorem Consistent.linked_once (h : Consistent all root t) (inRange : all k) (used : ¬ t.free k)
    (ne : k ≠ root) : ∃! p : κ × Nat, (t.targets p.1)[p.2]? = some k := by
  obtain ⟨d, hd⟩ := ((h.ledger.cover k inRange).resolve_left used).resolve_left ne
  obtain ⟨j, hj, heq⟩ := List.getElem_of_mem hd
  refine ⟨(d, j), (List.getElem?_eq_getElem hj).trans (congrArg some heq), ?_⟩
  rintro ⟨d', j'⟩ hj'
  obtain rfl := h.ledger.disjoint d d' k hd (List.mem_of_getElem? hj')
  congr 1
  obtain ⟨hlt, heq'⟩ := List.getElem?_eq_some_iff.mp hj'
  exact (List.Nodup.getElem_inj_iff (h.ledger.nodup d)).mp (heq'.trans heq.symm)

theorem nodup_concat_name {l : List (κ × ν)} (h : (l.map Prod.snd).Nodup)
    (fresh : name ∉ l.map Prod.snd) : ((l ++ [(k, name)]).map Prod.snd).Nodup := by
  rw [List.map_append]
  refine h.append (List.nodup_singleton _) ?_
  intro x hx hname
  obtain rfl : x = name := by simpa using hname
  exact fresh hx

theorem countP_eraseIdx {f : κ → Bool} {l : List κ} (h : l[j]? = some k) :
    l.countP f = (l.eraseIdx j).countP f + (f k).toNat := by
  obtain ⟨hj, rfl⟩ := List.getElem?_eq_some_iff.mp h
  have hperm := List.getElem_cons_eraseIdx_perm hj
  rw [← hperm.countP_eq, List.countP_cons]
  cases f l[j] <;> rfl

variable [DecidableEq κ]

theorem targets_update (links : κ → List (κ × ν)) (l : List (κ × ν)) :
    (fun x => (update links d l x).map Prod.fst) =
      update (fun x => (links x).map Prod.fst) d (l.map Prod.fst) := by
  funext x
  by_cases hx : x = d
  · rw [hx, update_self, update_self]
  · rw [update_of_ne hx, update_of_ne hx]

/-- Names stay distinct if they do in the folder that changes. -/
theorem names_update {links : κ → List (κ × ν)} {l : List (κ × ν)}
    (h : ∀ x, ((links x).map Prod.snd).Nodup) (new : (l.map Prod.snd).Nodup) (x : κ) :
    ((update links d l x).map Prod.snd).Nodup := by
  by_cases hx : x = d
  · rw [hx, update_self]
    exact new
  · rw [update_of_ne hx]
    exact h x

/-- The folders of a list, when the type of a number outside of it changes. -/
theorem countP_update {f : κ → Bool} {b : Bool} {l : List κ} (h : k ∉ l) :
    l.countP (update f k b) = l.countP f := by
  apply List.countP_congr
  intro x hx
  rw [update_of_ne (ne_of_mem_of_not_mem hx h)]

theorem Consistent.add {isFolder : Bool} (h : Consistent all root t) (inRange : all k)
    (free : t.free k) (folder : t.folder d = true) (fresh : name ∉ t.names d) :
    Consistent all root (t.add d k name isFolder) := by
  have hleaf := h.leaf k (h.free_leaf k free)
  have hkd : k ≠ d := by
    rintro rfl
    rw [h.free_leaf k free] at folder
    cases folder
  constructor
  · have htargets : (t.add d k name isFolder).targets = update t.targets d (t.targets d ++ [k]) := by
      refine (targets_update _ _).trans ?_
      rw [List.map_append]
      rfl
    rw [htargets]
    exact h.ledger.take d inRange free
  · exact names_update h.names (nodup_concat_name (h.names d) fresh)
  · intro x hx
    change update t.folder k isFolder x = false at hx
    change update t.links d _ x = []
    by_cases hxd : x = d
    · rw [hxd, update_of_ne hkd.symm, folder] at hx
      cases hx
    rw [update_of_ne hxd]
    by_cases hxk : x = k
    · rw [hxk]
      exact hleaf
    · rw [update_of_ne hxk] at hx
      exact h.leaf x hx
  · rintro x ⟨hfree, hne⟩
    change update t.folder k isFolder x = false
    rw [update_of_ne hne]
    exact h.free_leaf x hfree

theorem Consistent.subfolders_add {isFolder : Bool} (h : Consistent all root t) (free : t.free k) :
    (t.add d k name isFolder).subfolders e =
      t.subfolders e + if e = d then isFolder.toNat else 0 := by
  have hnot : ∀ x, k ∉ t.targets x := fun x hk => (h.ledger.held x k hk).2.1 free
  unfold Tree.subfolders
  change ((update t.links d (t.links d ++ [(k, name)]) e).map Prod.fst).countP
    (update t.folder k isFolder) = _
  by_cases he : e = d
  · rw [he, update_self, List.map_append, List.countP_append, if_pos rfl]
    congr 1
    · exact countP_update (hnot d)
    · cases isFolder <;> simp
  · rw [update_of_ne he, if_neg he]
    exact countP_update (hnot e)

theorem Consistent.remove (h : Consistent all root t) (at_ : (t.links d)[j]? = some (k, old))
    (empty : t.links k = []) : Consistent all root (t.remove d k j) := by
  constructor
  · have htargets : (t.remove d k j).targets = update t.targets d ((t.targets d).eraseIdx j) := by
      refine (targets_update _ _).trans ?_
      rw [← List.eraseIdx_map]
      rfl
    rw [htargets]
    exact h.ledger.release d (targets_getElem? at_)
  · refine names_update h.names ?_
    rw [← List.eraseIdx_map]
    exact (h.names d).eraseIdx j
  · intro x hx
    change update t.folder k false x = false at hx
    change update t.links d _ x = []
    have hold : t.links x = [] := by
      by_cases hxk : x = k
      · rw [hxk]
        exact empty
      · rw [update_of_ne hxk] at hx
        exact h.leaf x hx
    by_cases hxd : x = d
    · rw [hxd, update_self, ← hxd, hold]
      rfl
    · rw [update_of_ne hxd]
      exact hold
  · intro x hx
    change update t.folder k false x = false
    by_cases hxk : x = k
    · rw [hxk, update_self]
    · rw [update_of_ne hxk]
      exact h.free_leaf x (hx.resolve_right hxk)

theorem Consistent.subfolders_remove (h : Consistent all root t)
    (at_ : (t.links d)[j]? = some (k, old)) :
    t.subfolders e = (t.remove d k j).subfolders e + if e = d then (t.folder k).toNat else 0 := by
  have hplace := targets_getElem? at_
  unfold Tree.subfolders
  change _ = ((update t.links d ((t.links d).eraseIdx j) e).map Prod.fst).countP
    (update t.folder k false) + _
  by_cases he : e = d
  · rw [he, update_self, ← List.eraseIdx_map, if_pos rfl, countP_update]
    · exact countP_eraseIdx hplace
    · exact fun hk => ((mem_eraseIdx_iff (h.ledger.nodup d) hplace k).mp hk).2 rfl
  · rw [update_of_ne he, if_neg he]
    exact (countP_update (h.ledger.not_mem (Ne.symm he) (mem_targets at_))).symm

theorem rename_targets (at_ : (t.links d)[j]? = some (k, old)) :
    (t.rename d k j name).targets = t.targets := by
  refine (targets_update _ _).trans ?_
  obtain ⟨hj, heq⟩ := List.getElem?_eq_some_iff.mp (targets_getElem? at_)
  have hset : ((t.links d).set j (k, name)).map Prod.fst = t.targets d := by
    rw [List.map_set]
    change (t.targets d).set j k = _
    rw [← heq]
    exact List.set_getElem_self _
  rw [hset]
  exact update_eq_self d t.targets

theorem Consistent.rename (h : Consistent all root t) (at_ : (t.links d)[j]? = some (k, old))
    (fresh : name ∉ t.names d) : Consistent all root (t.rename d k j name) := by
  refine ⟨?_, ?_, ?_, h.free_leaf⟩
  · rw [rename_targets at_]
    exact h.ledger
  · refine names_update h.names ?_
    rw [List.map_set]
    exact (h.names d).set fresh
  · intro x hx
    change update t.links d _ x = []
    have hold := h.leaf x hx
    by_cases hxd : x = d
    · rw [hxd, update_self, ← hxd, hold]
      rfl
    · rw [update_of_ne hxd]
      exact hold

theorem move_targets : (t.move d k j d' name).targets =
    update (update t.targets d ((t.targets d).eraseIdx j)) d' (t.targets d' ++ [k]) := by
  refine (targets_update _ _).trans ?_
  rw [targets_update, List.map_append, ← List.eraseIdx_map]
  rfl

theorem Consistent.move (h : Consistent all root t) (at_ : (t.links d)[j]? = some (k, old))
    (folder : t.folder d' = true) (ne : d' ≠ d) (fresh : name ∉ t.names d') :
    Consistent all root (t.move d k j d' name) := by
  obtain ⟨hall, hused, _⟩ := h.ledger.held d k (mem_targets at_)
  refine ⟨?_, ?_, ?_, h.free_leaf⟩
  · rw [move_targets]
    -- between the two folders the number is free
    have hboth := (h.ledger.release d (targets_getElem? at_)).take d' hall (Or.inr rfl)
    have hfree : (fun x => (t.free x ∨ x = k) ∧ x ≠ k) = t.free := by
      funext x
      apply propext
      constructor
      · rintro ⟨hx, hne⟩
        exact hx.resolve_right hne
      · intro hx
        refine ⟨Or.inl hx, ?_⟩
        rintro rfl
        exact hused hx
    rw [hfree, update_of_ne ne] at hboth
    exact hboth
  · refine names_update (names_update h.names ?_) (nodup_concat_name (h.names d') fresh)
    rw [← List.eraseIdx_map]
    exact (h.names d).eraseIdx j
  · intro x hx
    change update (update t.links d _) d' _ x = []
    have hold := h.leaf x hx
    have hxd' : x ≠ d' := by
      rintro rfl
      rw [show t.folder x = false from hx] at folder
      cases folder
    rw [update_of_ne hxd']
    by_cases hxd : x = d
    · rw [hxd, update_self, ← hxd, hold]
      rfl
    · rw [update_of_ne hxd]
      exact hold

theorem subfolders_move (at_ : (t.links d)[j]? = some (k, old)) (ne : d' ≠ d) :
    t.subfolders e + (if e = d' then (t.folder k).toNat else 0) =
      (t.move d k j d' name).subfolders e + if e = d then (t.folder k).toNat else 0 := by
  have hfolder : (t.move d k j d' name).folder = t.folder := rfl
  unfold Tree.subfolders
  rw [move_targets, hfolder]
  by_cases he' : e = d'
  · subst he'
    rw [update_self, List.countP_append, if_pos rfl, if_neg ne, Nat.add_zero]
    cases hf : t.folder k <;> simp [hf]
  · rw [update_of_ne he', if_neg he', Nat.add_zero]
    by_cases he : e = d
    · rw [he, update_self, if_pos rfl]
      exact countP_eraseIdx (targets_getElem? at_)
    · rw [update_of_ne he, if_neg he, Nat.add_zero]

theorem names_add {isFolder : Bool} {n : ν} (h : n ∈ (t.add d k name isFolder).names e) :
    n ∈ t.names e ∨ n = name := by
  change n ∈ (update t.links d (t.links d ++ [(k, name)]) e).map Prod.snd at h
  by_cases he : e = d
  · rw [he, update_self, List.map_append, List.mem_append] at h
    rcases h with hold | hnew
    · exact Or.inl (he ▸ hold)
    · exact Or.inr (List.mem_singleton.mp hnew)
  · rw [update_of_ne he] at h
    exact Or.inl h

theorem names_remove {n : ν} (h : n ∈ (t.remove d k j).names e) : n ∈ t.names e := by
  change n ∈ (update t.links d ((t.links d).eraseIdx j) e).map Prod.snd at h
  by_cases he : e = d
  · rw [he, update_self, ← List.eraseIdx_map] at h
    exact he ▸ List.mem_of_mem_eraseIdx h
  · rw [update_of_ne he] at h
    exact h

theorem names_rename {n : ν} (h : n ∈ (t.rename d k j name).names e) :
    n ∈ t.names e ∨ n = name := by
  change n ∈ (update t.links d ((t.links d).set j (k, name)) e).map Prod.snd at h
  by_cases he : e = d
  · rw [he, update_self] at h
    obtain ⟨p, hp, rfl⟩ := List.mem_map.mp h
    rcases List.mem_or_eq_of_mem_set hp with hold | rfl
    · exact Or.inl (he ▸ List.mem_map_of_mem hold)
    · exact Or.inr rfl
  · rw [update_of_ne he] at h
    exact Or.inl h

theorem names_move {n : ν} (h : n ∈ (t.move d k j d' name).names e) :
    n ∈ t.names e ∨ n = name := by
  change n ∈ (update (update t.links d ((t.links d).eraseIdx j)) d'
    (t.links d' ++ [(k, name)]) e).map Prod.snd at h
  by_cases he' : e = d'
  · rw [he', update_self, List.map_append, List.mem_append] at h
    rcases h with hold | hnew
    · exact Or.inl (he' ▸ hold)
    · exact Or.inr (List.mem_singleton.mp hnew)
  · rw [update_of_ne he'] at h
    exact Or.inl (names_remove (k := k) h)

end

section

variable {k : κ} {j : Nat} {name old : ν} [DecidableEq ν] {l l' : List (κ × ν)}

/-- Where the link `n` of `l` leads to. -/
def follow (l : List (κ × ν)) (n : ν) : Option κ := (l.find? fun p => p.2 = n).map Prod.fst

theorem follow_eq_some (nodup : (l.map Prod.snd).Nodup) {n : ν} :
    follow l n = some k ↔ (k, n) ∈ l := by
  unfold follow
  constructor
  · intro h
    obtain ⟨p, hp, rfl⟩ := Option.map_eq_some_iff.mp h
    have hn : p.2 = n := by simpa using List.find?_some hp
    rw [← hn]
    exact List.mem_of_find?_eq_some hp
  · intro h
    obtain ⟨p, hp⟩ : ∃ p, l.find? (fun p => decide (p.2 = n)) = some p :=
      Option.isSome_iff_exists.mp (List.find?_isSome.mpr ⟨(k, n), h, by simp⟩)
    have hn : p.2 = n := by simpa using List.find?_some hp
    have heq : p = (k, n) := List.inj_on_of_nodup_map nodup (List.mem_of_find?_eq_some hp) h hn
    rw [hp, heq]
    rfl

theorem follow_eq_none {n : ν} : follow l n = none ↔ n ∉ l.map Prod.snd := by
  unfold follow
  rw [Option.map_eq_none_iff, List.find?_eq_none]
  constructor
  · intro h hn
    obtain ⟨p, hp, heq⟩ := List.mem_map.mp hn
    exact h p hp (by simp [heq])
  · intro h p hp heq
    exact h (List.mem_map.mpr ⟨p, hp, by simpa using heq⟩)

/-- The order of the links does not matter. -/
theorem follow_perm (nodup : (l.map Prod.snd).Nodup) (perm : l'.Perm l) : follow l' = follow l := by
  funext n
  have hnodup : (l'.map Prod.snd).Nodup := ((perm.map Prod.snd).nodup_iff).mpr nodup
  refine Option.ext fun x => ?_
  rw [follow_eq_some hnodup, follow_eq_some nodup, perm.mem_iff]

theorem follow_append (fresh : name ∉ l.map Prod.snd) :
    follow (l ++ [(k, name)]) = update (follow l) name (some k) := by
  funext n
  by_cases hn : n = name
  · subst hn
    have hnone : follow l n = none := follow_eq_none.mpr fresh
    rw [update_self]
    unfold follow at hnone ⊢
    rw [List.find?_append, Option.map_eq_none_iff.mp hnone]
    simp
  · rw [update_of_ne hn]
    unfold follow
    rw [List.find?_append]
    simp [show ¬ name = n from fun h => hn h.symm]

theorem follow_eraseIdx (nodup : (l.map Prod.snd).Nodup) (at_ : l[j]? = some (k, old)) :
    follow (l.eraseIdx j) = update (follow l) old none := by
  have hnodup : ((l.eraseIdx j).map Prod.snd).Nodup := by
    rw [← List.eraseIdx_map]
    exact nodup.eraseIdx j
  obtain ⟨hj, hat⟩ := List.getElem?_eq_some_iff.mp at_
  have hplace : ∀ i (hi : i < l.length), l[i].2 = old → i = j := by
    intro i hi heq
    have hlen : ∀ {m}, m < l.length → m < (l.map Prod.snd).length := fun h => by simpa using h
    refine (@List.Nodup.getElem_inj_iff _ _ nodup _ (hlen hi) _ (hlen hj)).mp ?_
    rw [List.getElem_map, List.getElem_map, heq, hat]
  have hmem : ∀ p, p ∈ l.eraseIdx j ↔ p ∈ l ∧ p.2 ≠ old := by
    intro p
    rw [List.mem_eraseIdx_iff_getElem]
    constructor
    · rintro ⟨i, hi, hne, rfl⟩
      exact ⟨List.getElem_mem hi, fun heq => hne (hplace i hi heq)⟩
    · rintro ⟨hp, hne⟩
      obtain ⟨i, hi, rfl⟩ := List.getElem_of_mem hp
      refine ⟨i, hi, ?_, rfl⟩
      rintro rfl
      exact hne (by rw [hat])
  funext n
  by_cases hn : n = old
  · rw [hn, update_self, follow_eq_none]
    intro h
    obtain ⟨p, hp, heq⟩ := List.mem_map.mp h
    exact ((hmem p).mp hp).2 heq
  · rw [update_of_ne hn]
    refine Option.ext fun x => ?_
    rw [follow_eq_some hnodup, follow_eq_some nodup, hmem]
    exact ⟨fun h => h.1, fun h => ⟨h, hn⟩⟩

theorem follow_set (nodup : (l.map Prod.snd).Nodup) (at_ : l[j]? = some (k, old))
    (fresh : name ∉ l.map Prod.snd) :
    follow (l.set j (k, name)) = update (update (follow l) old none) name (some k) := by
  have hj := (List.getElem?_eq_some_iff.mp at_).1
  have hfresh : name ∉ (l.eraseIdx j).map Prod.snd := by
    rw [← List.eraseIdx_map]
    exact fun h => fresh (List.mem_of_mem_eraseIdx h)
  have hnodup : ((l.eraseIdx j).map Prod.snd).Nodup := by
    rw [← List.eraseIdx_map]
    exact nodup.eraseIdx j
  rw [← follow_eraseIdx nodup at_, ← follow_append hfresh]
  refine follow_perm (nodup_concat_name hnodup hfresh) ?_
  exact (List.set_perm_cons_eraseIdx hj _).trans (List.perm_append_singleton _ _).symm

end

section

variable {all : κ → Prop} {root : κ} {t : Tree κ ν} {d d' k : κ} {j : Nat} {name old : ν}
  [DecidableEq κ] [DecidableEq ν]

/-- Where the name `n` leads to from `d`. -/
def Tree.find (t : Tree κ ν) (d : κ) (n : ν) : Option κ := follow (t.links d) n

/-- Only `d` leads anywhere else. -/
theorem follow_update (links : κ → List (κ × ν)) (l : List (κ × ν)) :
    (fun e => follow (update links d l e)) = update (fun e => follow (links e)) d (follow l) := by
  funext e
  by_cases he : e = d
  · rw [he, update_self, update_self]
  · rw [update_of_ne he, update_of_ne he]

theorem find_add {isFolder : Bool} (fresh : name ∉ t.names d) :
    (t.add d k name isFolder).find = update t.find d (update (t.find d) name (some k)) :=
  (follow_update t.links _).trans (congrArg _ (follow_append fresh))

theorem Consistent.find_remove (h : Consistent all root t)
    (at_ : (t.links d)[j]? = some (k, old)) :
    (t.remove d k j).find = update t.find d (update (t.find d) old none) :=
  (follow_update t.links _).trans (congrArg _ (follow_eraseIdx (h.names d) at_))

theorem Consistent.find_rename (h : Consistent all root t)
    (at_ : (t.links d)[j]? = some (k, old)) (fresh : name ∉ t.names d) :
    (t.rename d k j name).find =
      update t.find d (update (update (t.find d) old none) name (some k)) :=
  (follow_update t.links _).trans (congrArg _ (follow_set (h.names d) at_ fresh))

theorem Consistent.find_move (h : Consistent all root t) (at_ : (t.links d)[j]? = some (k, old))
    (fresh : name ∉ t.names d') : (t.move d k j d' name).find =
      update (update t.find d (update (t.find d) old none)) d'
        (update (t.find d') name (some k)) := by
  refine (follow_update _ _).trans ?_
  rw [follow_update, follow_eraseIdx (h.names d) at_, follow_append fresh]
  rfl

end

end Hierarchy
