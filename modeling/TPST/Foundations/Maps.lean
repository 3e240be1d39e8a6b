import Mathlib.Data.List.Nodup
import Std.Data.ExtTreeMap
import Std.Data.ExtTreeSet

/-!
# Ordered maps, and maps of maps

`OMap α β` and `OSet α` are Std's extensional ordered map and set: what a program that iterates
its maps in key order works with. The facts here are about maps of maps, read as a table whose
cells `cell m a b` are written in place:

* `cell_modifyCell`, `cell_insertCell`, `cell_eraseCell`: what a write does to every cell;
* `rowKeys_modifyCell`, `mem_modifyCell`: an in-place write leaves the shape of the table alone.
-/

set_option linter.unusedSectionVars false

namespace TPST

open Std

/-- An ordered map. -/
abbrev OMap (α β : Type*) [Ord α] := ExtTreeMap α β compare

/-- An ordered set. -/
abbrev OSet (α : Type*) [Ord α] := ExtTreeSet α compare

theorem OSet.nodup_toList {α : Type*} [Ord α] [TransOrd α] [LawfulEqOrd α] (s : OSet α) :
    s.toList.Nodup :=
  (ExtTreeSet.distinct_toList (t := s)).imp fun h heq => h (Std.compare_eq_iff_eq.2 heq)

namespace OMap

variable {α β γ : Type*} [Ord α] [TransOrd α] [LawfulEqOrd α]

/-- The list of keys depends on the set of keys only. -/
theorem keys_eq_of_mem_iff {m : OMap α β} {m' : OMap α γ} (h : ∀ a, a ∈ m ↔ a ∈ m') :
    m.keys = m'.keys := by
  apply List.Perm.eq_of_pairwise ?_ ExtTreeMap.ordered_keys ExtTreeMap.ordered_keys
  · rw [List.perm_ext_iff_of_nodup ExtTreeMap.nodup_keys ExtTreeMap.nodup_keys]
    intro a
    rw [ExtTreeMap.mem_keys, ExtTreeMap.mem_keys, h]
  · intro a b _ _ hab hba
    exact (OrientedCmp.not_lt_of_lt hab hba).elim

@[simp] theorem keys_modify (m : OMap α β) (a : α) (f : β → β) : (m.modify a f).keys = m.keys :=
  keys_eq_of_mem_iff fun _ => ExtTreeMap.mem_modify

/-! ## Tables -/

variable {κ : Type*} [Ord κ] [TransOrd κ] [LawfulEqOrd κ] [DecidableEq α] [DecidableEq κ]

/-- The entry of the table at `(a, b)`. -/
def cell (m : OMap α (OMap κ γ)) (a : α) (b : κ) : Option γ := m[a]?.bind fun row => row[b]?

/-- The keys of the row at `a`, in order; none when there is no such row. -/
def rowKeys (m : OMap α (OMap κ γ)) (a : α) : List κ := (m[a]?.map fun row => row.keys).getD []

/-- The entries of the row at `a`, in order; none when there is no such row. -/
def rowEntries (m : OMap α (OMap κ γ)) (a : α) : List (κ × γ) :=
  (m[a]?.map fun row => row.toList).getD []

/-- Write an existing entry in place. -/
def modifyCell (m : OMap α (OMap κ γ)) (a : α) (b : κ) (f : γ → γ) : OMap α (OMap κ γ) :=
  m.modify a fun row => row.modify b f

/-- Set an entry, opening the row if there is none. -/
def insertCell (m : OMap α (OMap κ γ)) (a : α) (b : κ) (c : γ) : OMap α (OMap κ γ) :=
  m.alter a fun row => some ((row.getD ∅).insert b c)

/-- Remove an entry; its row stays, perhaps empty. -/
def eraseCell (m : OMap α (OMap κ γ)) (a : α) (b : κ) : OMap α (OMap κ γ) :=
  m.modify a fun row => row.erase b

/-- Open the row at `a` if there is none. -/
def openRow (m : OMap α (OMap κ γ)) (a : α) : OMap α (OMap κ γ) :=
  m.alter a fun row => some (row.getD ∅)

@[simp] theorem cell_empty (a : α) (b : κ) : cell (∅ : OMap α (OMap κ γ)) a b = none := by
  simp [cell]

theorem cell_eq_some {m : OMap α (OMap κ γ)} {a : α} {b : κ} {c : γ} :
    cell m a b = some c ↔ ∃ row, m[a]? = some row ∧ row[b]? = some c :=
  Option.bind_eq_some_iff

theorem mem_of_cell {m : OMap α (OMap κ γ)} {a : α} {b : κ} {c : γ} (h : cell m a b = some c) :
    a ∈ m := by
  obtain ⟨row, hrow, -⟩ := cell_eq_some.1 h
  rw [ExtTreeMap.mem_iff_isSome_getElem?, hrow]
  rfl

/-- Two tables are the same if they have the same rows and the same entries. -/
theorem ext_cell {m m' : OMap α (OMap κ γ)} (hrows : ∀ a, a ∈ m ↔ a ∈ m')
    (hcells : ∀ a b, cell m a b = cell m' a b) : m = m' := by
  apply ExtTreeMap.ext_getElem?
  intro a
  have hrow := hrows a
  rw [ExtTreeMap.mem_iff_isSome_getElem?, ExtTreeMap.mem_iff_isSome_getElem?] at hrow
  have hcell := hcells a
  simp only [cell] at hcell
  cases hm : m[a]? with
  | none =>
    cases hm' : m'[a]? with
    | none => rfl
    | some row' => simp [hm, hm'] at hrow
  | some row =>
    cases hm' : m'[a]? with
    | none => simp [hm, hm'] at hrow
    | some row' =>
      congr 1
      apply ExtTreeMap.ext_getElem?
      intro b
      simpa [hm, hm'] using hcell b

theorem cell_modifyCell (m : OMap α (OMap κ γ)) (a a' : α) (b b' : κ) (f : γ → γ) :
    cell (modifyCell m a b f) a' b' =
      if a = a' ∧ b = b' then (cell m a' b').map f else cell m a' b' := by
  simp only [cell, modifyCell, ExtTreeMap.getElem?_modify, Std.compare_eq_iff_eq]
  by_cases ha : a = a'
  · subst ha
    cases hrow : m[a]? with
    | none => simp
    | some row =>
      simp only [↓reduceIte, Option.map_some, Option.bind_some, ExtTreeMap.getElem?_modify,
        Std.compare_eq_iff_eq, true_and]
      by_cases hb : b = b'
      · subst hb; simp
      · simp [hb]
  · simp [ha]

theorem cell_insertCell (m : OMap α (OMap κ γ)) (a a' : α) (b b' : κ) (c : γ) :
    cell (insertCell m a b c) a' b' = if a = a' ∧ b = b' then some c else cell m a' b' := by
  simp only [cell, insertCell, ExtTreeMap.getElem?_alter, Std.compare_eq_iff_eq]
  by_cases ha : a = a'
  · subst ha
    simp only [↓reduceIte, Option.bind_some, ExtTreeMap.getElem?_insert, Std.compare_eq_iff_eq,
      true_and]
    by_cases hb : b = b'
    · simp [hb]
    · cases m[a]? <;> simp [hb]
  · simp [ha]

theorem cell_eraseCell (m : OMap α (OMap κ γ)) (a a' : α) (b b' : κ) :
    cell (eraseCell m a b) a' b' = if a = a' ∧ b = b' then none else cell m a' b' := by
  simp only [cell, eraseCell, ExtTreeMap.getElem?_modify, Std.compare_eq_iff_eq]
  by_cases ha : a = a'
  · subst ha
    cases hrow : m[a]? with
    | none => simp
    | some row =>
      by_cases hb : b = b'
      · simp [hb]
      · simp [ExtTreeMap.getElem?_erase, hb]
  · simp [ha]

@[simp] theorem cell_openRow (m : OMap α (OMap κ γ)) (a a' : α) (b : κ) :
    cell (openRow m a) a' b = cell m a' b := by
  simp only [cell, openRow, ExtTreeMap.getElem?_alter, Std.compare_eq_iff_eq]
  by_cases ha : a = a'
  · subst ha
    cases m[a]? <;> simp
  · simp [ha]

@[simp] theorem mem_modifyCell {m : OMap α (OMap κ γ)} {a a' : α} {b : κ} {f : γ → γ} :
    a' ∈ modifyCell m a b f ↔ a' ∈ m :=
  ExtTreeMap.mem_modify

@[simp] theorem mem_eraseCell {m : OMap α (OMap κ γ)} {a a' : α} {b : κ} :
    a' ∈ eraseCell m a b ↔ a' ∈ m :=
  ExtTreeMap.mem_modify

@[simp] theorem mem_insertCell {m : OMap α (OMap κ γ)} {a a' : α} {b : κ} {c : γ} :
    a' ∈ insertCell m a b c ↔ a = a' ∨ a' ∈ m := by
  rw [insertCell, ExtTreeMap.mem_alter]
  by_cases ha : a = a' <;> simp [ha]

@[simp] theorem mem_openRow {m : OMap α (OMap κ γ)} {a a' : α} :
    a' ∈ openRow m a ↔ a = a' ∨ a' ∈ m := by
  rw [openRow, ExtTreeMap.mem_alter]
  by_cases ha : a = a' <;> simp [ha]

@[simp] theorem rowKeys_modifyCell (m : OMap α (OMap κ γ)) (a a' : α) (b : κ) (f : γ → γ) :
    rowKeys (modifyCell m a b f) a' = rowKeys m a' := by
  simp only [rowKeys, modifyCell, ExtTreeMap.getElem?_modify, Std.compare_eq_iff_eq]
  by_cases ha : a = a'
  · subst ha
    cases m[a]? <;> simp
  · simp [ha]

@[simp] theorem rowKeys_openRow (m : OMap α (OMap κ γ)) (a a' : α) :
    rowKeys (openRow m a) a' = rowKeys m a' := by
  simp only [rowKeys, openRow, ExtTreeMap.getElem?_alter, Std.compare_eq_iff_eq]
  by_cases ha : a = a'
  · subst ha
    cases m[a]? <;> simp
  · simp [ha]

theorem rowKeys_insertCell_of_ne (m : OMap α (OMap κ γ)) {a a' : α} (h : a ≠ a') (b : κ) (c : γ) :
    rowKeys (insertCell m a b c) a' = rowKeys m a' := by
  simp only [rowKeys, insertCell, ExtTreeMap.getElem?_alter, Std.compare_eq_iff_eq, if_neg h]

theorem getElem?_insertCell_of_ne (m : OMap α (OMap κ γ)) {a a' : α} (h : a ≠ a') (b : κ)
    (c : γ) : (insertCell m a b c)[a']? = m[a']? := by
  rw [insertCell, ExtTreeMap.getElem?_alter, if_neg]
  exact fun heq => h (Std.compare_eq_iff_eq.1 heq)

/-- What an update leaves at a key depends on what was there. -/
theorem getElem?_alter_congr {m m' : OMap α β} {a : α} (h : m[a]? = m'[a]?) (a' : α)
    (f : Option β → Option β) : (m.alter a' f)[a]? = (m'.alter a' f)[a]? := by
  rw [ExtTreeMap.getElem?_alter, ExtTreeMap.getElem?_alter]
  split
  · rename_i heq
    rw [compare_eq_iff_eq.1 heq, h]
  · exact h

theorem openRow_eq_self {m : OMap α (OMap κ γ)} {a : α} (h : a ∈ m) : openRow m a = m := by
  refine ext_cell (fun a' => ?_) fun a' b => cell_openRow m a a' b
  rw [mem_openRow]
  exact or_iff_right_of_imp fun heq => heq ▸ h

theorem eraseCell_eq_self {m : OMap α (OMap κ γ)} {a : α} {b : κ} (h : cell m a b = none) :
    eraseCell m a b = m := by
  refine ext_cell (fun a' => mem_eraseCell) fun a' b' => ?_
  rw [cell_eraseCell]
  split
  · rename_i heq
    rw [← heq.1, ← heq.2, h]
  · rfl

/-- An in-place write matters at the entry it meets only. -/
theorem modifyCell_congr {m : OMap α (OMap κ γ)} {a : α} {b : κ} {f g : γ → γ}
    (h : ∀ c, cell m a b = some c → f c = g c) : modifyCell m a b f = modifyCell m a b g := by
  apply ExtTreeMap.ext_getElem?
  intro k
  rw [modifyCell, modifyCell, ExtTreeMap.getElem?_modify, ExtTreeMap.getElem?_modify]
  by_cases hk : a = k
  · subst hk
    cases hrow : m[a]? with
    | none => rfl
    | some row =>
      have hrows : row.modify b f = row.modify b g := by
        apply ExtTreeMap.ext_getElem?
        intro b'
        rw [ExtTreeMap.getElem?_modify, ExtTreeMap.getElem?_modify]
        by_cases hb : b = b'
        · subst hb
          cases hc : row[b]? with
          | none => rfl
          | some c => simp [h c (cell_eq_some.2 ⟨row, hrow, hc⟩)]
        · simp [hb]
      rw [Option.map_some, Option.map_some, hrows]
  · simp [hk]

@[simp] theorem modifyCell_id (m : OMap α (OMap κ γ)) (a : α) (b : κ) :
    modifyCell m a b (fun c => c) = m := by
  have hrow : ∀ row : OMap κ γ, row.modify b (fun c => c) = row := by
    intro row
    apply ExtTreeMap.ext_getElem?
    intro b'
    by_cases hb : b = b'
    · subst hb; simp
    · simp [ExtTreeMap.getElem?_modify, hb]
  apply ExtTreeMap.ext_getElem?
  intro k
  by_cases hk : a = k
  · subst hk; simp [modifyCell, hrow]
  · simp [modifyCell, ExtTreeMap.getElem?_modify, hk]

theorem mem_rowKeys {m : OMap α (OMap κ γ)} {a : α} {b : κ} :
    b ∈ rowKeys m a ↔ ∃ c, cell m a b = some c := by
  simp only [rowKeys, cell]
  cases m[a]? with
  | none => simp
  | some row =>
    rw [Option.map_some, Option.getD_some, ExtTreeMap.mem_keys,
      ExtTreeMap.mem_iff_isSome_getElem?, Option.isSome_iff_exists]
    rfl

/-- The list of keys of a row depends on the set of its keys only. -/
theorem rowKeys_eq_of_mem_iff {m m' : OMap α (OMap κ γ)} {a : α}
    (h : ∀ b, b ∈ rowKeys m a ↔ b ∈ rowKeys m' a) : rowKeys m a = rowKeys m' a := by
  simp only [rowKeys] at h ⊢
  cases hm : m[a]? with
  | none =>
    rw [hm] at h
    exact (List.eq_nil_iff_forall_not_mem.2 fun b hb => List.not_mem_nil ((h b).2 hb)).symm
  | some row =>
    rw [hm] at h
    cases hm' : m'[a]? with
    | none =>
      rw [hm'] at h
      exact List.eq_nil_iff_forall_not_mem.2 fun b hb => List.not_mem_nil ((h b).1 hb)
    | some row' =>
      refine keys_eq_of_mem_iff fun b => ?_
      simpa [hm'] using h b

theorem mem_rowEntries {m : OMap α (OMap κ γ)} {a : α} {b : κ} {c : γ} :
    (b, c) ∈ rowEntries m a ↔ cell m a b = some c := by
  simp only [rowEntries, cell]
  cases m[a]? with
  | none => simp
  | some row =>
    rw [Option.map_some, Option.getD_some, ExtTreeMap.mem_toList_iff_getElem?_eq_some]
    rfl

/-- The entries of a table that is mapped entry by entry. -/
theorem cell_map {δ : Type*} (m : OMap α (OMap κ γ)) (f : α → κ → γ → δ) (a : α) (b : κ) :
    cell (m.map fun a row => row.map (f a)) a b = (cell m a b).map (f a b) := by
  simp only [cell, ExtTreeMap.getElem?_map]
  cases m[a]? with
  | none => rfl
  | some row => exact ExtTreeMap.getElem?_map

theorem rowEntries_map {δ : Type*} (m : OMap α (OMap κ γ)) (f : α → κ → δ) (a : α) :
    rowEntries (m.map fun a row => row.map fun b _ => f a b) a =
      (rowKeys m a).map fun b => (b, f a b) := by
  simp only [rowEntries, rowKeys, ExtTreeMap.getElem?_map]
  cases m[a]? with
  | none => rfl
  | some row =>
    simp only [Option.map_some, Option.getD_some, ExtTreeMap.toList_map,
      ← ExtTreeMap.map_fst_toList_eq_keys, List.map_map]
    rfl

theorem nodup_rowEntries (m : OMap α (OMap κ γ)) (a : α) : (rowEntries m a).Nodup := by
  simp only [rowEntries]
  cases m[a]? with
  | none => exact List.nodup_nil
  | some row =>
    exact (ExtTreeMap.distinct_keys_toList (t := row)).imp fun h heq =>
      h (Std.compare_eq_iff_eq.2 (congrArg Prod.fst heq))

/-- Opening a row adds no entry. -/
theorem rowEntries_openRow (m : OMap α (OMap κ γ)) (a a' : α) :
    rowEntries (openRow m a) a' = rowEntries m a' := by
  simp only [rowEntries, openRow, ExtTreeMap.getElem?_alter, Std.compare_eq_iff_eq]
  by_cases ha : a = a'
  · subst ha
    cases m[a]? <;> simp
  · simp [ha]

/-- A row with one entry more. -/
theorem rowEntries_perm_cons {m m' : OMap α (OMap κ γ)} {a : α} {b : κ} {c : γ}
    (hnew : cell m a b = none)
    (hcells : ∀ b', cell m' a b' = if b = b' then some c else cell m a b') :
    (rowEntries m' a).Perm ((b, c) :: rowEntries m a) := by
  have hfresh : (b, c) ∉ rowEntries m a := fun hmem => by
    rw [mem_rowEntries, hnew] at hmem
    cases hmem
  refine (List.perm_ext_iff_of_nodup (nodup_rowEntries m' a)
    (List.nodup_cons.2 ⟨hfresh, nodup_rowEntries m a⟩)).2 fun ⟨b', c'⟩ => ?_
  rw [mem_rowEntries, hcells, List.mem_cons, mem_rowEntries, Prod.mk.injEq]
  by_cases hb : b = b'
  · subst hb
    simp [hnew, eq_comm]
  · simp [hb, Ne.symm hb]

theorem nodup_rowKeys (m : OMap α (OMap κ γ)) (a : α) : (rowKeys m a).Nodup := by
  simp only [rowKeys]
  cases m[a]? with
  | none => exact List.nodup_nil
  | some row => exact ExtTreeMap.nodup_keys

end OMap

end TPST
